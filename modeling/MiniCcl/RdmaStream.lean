/-
MiniCcl/RdmaStream.lean

The chunks that go from one endpoint to the other, and the invariant of a run in
which nothing goes wrong.

The chunks of all `Send` calls of a side are numbered through: `Calls.pos` is the
call and the offset of the `j`-th one.  The numbers are what `SendSide`, `RecvSide`
and `Link` share: the first says what the sending thread and its posted sends are
at, the second what the receiving thread and the unread buffers are at, and the
third that what is in between is the rest of the numbers, in order.
-/
import MiniCcl.RdmaPool

namespace MiniCcl.TransportRdma

/-! ### Chunks -/

/-- A chunk as it is in a buffer: size header, then data. -/
def frame (chunk : List UInt8) : List UInt8 := htobe64 chunk.length ++ chunk

@[simp] theorem length_frame (chunk : List UInt8) : (frame chunk).length = 8 + chunk.length := by
  rw [frame, List.length_append, htobe64, length_toBigEndian]

/-- The buffer starts with this chunk. -/
def Holds (m : Mem ℕ UInt8) (id : ℕ) (chunk : List UInt8) : Prop :=
  m.read ⟨id, 0, 8 + chunk.length⟩ = frame chunk

section Holds

variable {m : Mem ℕ UInt8} {e : Endpoint} {id : ℕ} {chunk : List UInt8}

/-- Writing to another buffer changes nothing. -/
theorem Holds.write (h : Holds m id chunk) {id' : ℕ} (hne : id ≠ id') (o n : ℕ)
    (bytes : List UInt8) : Holds (m.write ⟨id', o, n⟩ bytes) id chunk := by
  rw [Holds, Mem.read_write_of_disjoint (Slice.disjoint_of_buf_ne hne)]
  exact h

theorem Holds.stageChunk (h : Holds e.mem id chunk) {id' : ℕ} (hne : id ≠ id')
    (data : List UInt8) : Holds (e.stageChunk id' data) id chunk :=
  (h.write hne 0 8 _).write hne 8 data.length data

theorem holds_stageChunk (e : Endpoint) (id : ℕ) (chunk : List UInt8) :
    Holds (e.stageChunk id chunk) id chunk := by
  have hdisj : (⟨id, 0, 8⟩ : Slice ℕ).Disjoint ⟨id, 8, chunk.length⟩ := .inr (.inl le_rfl)
  have hlen : (htobe64 chunk.length).length = 8 := length_toBigEndian 8 chunk.length
  have hheader := Mem.read_write_self e.mem id 0 (htobe64 chunk.length)
  rw [hlen] at hheader
  rw [Holds, Mem.read_append, Endpoint.stageChunk, Mem.read_write_of_disjoint hdisj, hheader,
    Nat.zero_add, Mem.read_write_self]
  rfl

theorem holds_write (m : Mem ℕ UInt8) (id : ℕ) (chunk : List UInt8) :
    Holds (m.write ⟨id, 0, (frame chunk).length⟩ (frame chunk)) id chunk := by
  have hread := Mem.read_write_self m id 0 (frame chunk)
  rw [length_frame] at hread ⊢
  exact hread

/-- What `Recv` reads of a buffer with a chunk. -/
theorem Holds.read (h : Holds e.mem id chunk) (hsmall : chunk.length + 8 < 2 ^ 32) :
    e.header id = chunk.length ∧ e.payload id chunk.length = chunk := by
  rw [Holds, Mem.read_append, frame] at h
  have hlen : (e.mem.read ⟨id, 0, 8⟩).length = (htobe64 chunk.length).length := by
    rw [Mem.length_read, htobe64, length_toBigEndian]
  obtain ⟨hheader, hpayload⟩ := List.append_inj h hlen
  refine ⟨?_, hpayload⟩
  rw [Endpoint.header, hheader, htobe64, be64toh, ofBigEndian_toBigEndian]
  exact Nat.mod_eq_of_lt (by omega)

end Holds

namespace Calls

variable (x : Calls) (p : Side)

/-- The call and the offset after a chunk has been sent. -/
def next (pos : ℕ × ℕ) : ℕ × ℕ :=
  if pos.2 + (x.sendChunk p pos.1 pos.2).length < (x.data p pos.1).length then
    (pos.1, pos.2 + (x.sendChunk p pos.1 pos.2).length)
  else (pos.1 + 1, 0)

/-- The call and the offset of the `j`-th chunk that side `p` sends. -/
def pos : ℕ → ℕ × ℕ
  | 0 => (0, 0)
  | j + 1 => x.next p (pos j)

/-- The `j`-th chunk that side `p` sends. -/
def chunk (j : ℕ) : List UInt8 := x.sendChunk p (x.pos p j).1 (x.pos p j).2

variable {x p} {j k offset : ℕ}

theorem chunk_eq (h : x.pos p j = (k, offset)) : x.chunk p j = x.sendChunk p k offset := by
  rw [chunk, h]

theorem pos_next (h : x.pos p j = (k, offset))
    (hmore : offset + (x.sendChunk p k offset).length < (x.data p k).length) :
    x.pos p (j + 1) = (k, offset + (x.sendChunk p k offset).length) := by
  rw [pos, h, next, if_pos hmore]

theorem pos_last (h : x.pos p j = (k, offset))
    (hmore : ¬ offset + (x.sendChunk p k offset).length < (x.data p k).length) :
    x.pos p (j + 1) = (k + 1, 0) := by
  rw [pos, h, next, if_neg hmore]

/-- A chunk continues what was sent before. -/
theorem take_append_sendChunk (x : Calls) (p : Side) (k offset : ℕ) :
    (x.data p k).take offset ++ x.sendChunk p k offset
      = (x.data p k).take (offset + (x.sendChunk p k offset).length) := by
  rw [sendChunk]
  generalize chunkSize _ _ _ = size
  rw [← List.take_add, List.length_take, List.length_drop]
  rcases Nat.le_total (offset + size) (x.data p k).length with hle | hle
  · rw [Nat.min_eq_left (by omega)]
  · rw [List.take_of_length_le hle, List.take_of_length_le (by omega)]

/-- Only a message that is larger than a chunk has a second one. -/
theorem pos_offset (h : x.pos p j = (k, offset)) :
    offset = 0 ∨ (x.config p).maxPayload < (x.data p k).length ∧
      offset < (x.data p k).length := by
  cases j with
  | zero =>
      cases h
      exact .inl rfl
  | succ j =>
      rcases hpos : x.pos p j with ⟨k', offset'⟩
      rw [pos, hpos, next] at h
      split at h
      · rename_i hmore
        cases h
        refine .inr ⟨?_, hmore⟩
        -- a message that fits into a chunk is sent as a whole
        by_contra hfit
        have hchunk : (x.sendChunk p k' offset').length = (x.data p k').length - offset' := by
          rw [sendChunk, chunkSize, if_pos (Nat.le_of_not_lt hfit), List.length_take,
            List.length_drop]
          exact min_eq_right (Nat.sub_le _ _)
        have hmore : offset' + (x.sendChunk p k' offset').length < (x.data p k').length := hmore
        rw [hchunk] at hmore
        omega
      · cases h
        exact .inl rfl

/-- With buffers of the same size both sides compute the same chunk boundaries. -/
theorem recvSize_eq (hbuffer : (x.config p.peer).bufferSize = (x.config p).bufferSize)
    (hsize : x.size p.peer k = (x.data p k).length) (h : x.pos p j = (k, offset)) :
    x.recvSize p.peer k offset = (x.sendChunk p k offset).length := by
  have hpayload : (x.config p.peer).maxPayload = (x.config p).maxPayload :=
    congrArg (sizeSub · 8) hbuffer
  rw [recvSize, hpayload, hsize, sendChunk, List.length_take, List.length_drop, eq_comm]
  apply min_eq_left
  unfold chunkSize
  split
  · rename_i hfit
    rcases pos_offset h with rfl | ⟨hlarge, -⟩
    · rfl
    · exact absurd hfit (Nat.not_le_of_lt hlarge)
  · exact min_le_left _ _

end Calls

/-! ### The invariant -/

/-- The sends among some completions. -/
def sentSeqs (cq : List Completion) : List ℕ :=
  cq.filterMap fun
    | .sent seq => some seq
    | .received _ _ => none

/-- The receives among some completions: buffer and number of the message. -/
def arrivals (cq : List Completion) : List (ℕ × ℕ) :=
  cq.filterMap fun
    | .sent _ => none
    | .received id seq => some (id, seq)

section Completions

variable (cq : List Completion) (id seq : ℕ)

@[simp] theorem sentSeqs_cons_sent : sentSeqs (.sent seq :: cq) = seq :: sentSeqs cq := rfl

@[simp] theorem sentSeqs_cons_received : sentSeqs (.received id seq :: cq) = sentSeqs cq := rfl

@[simp] theorem arrivals_cons_sent : arrivals (.sent seq :: cq) = arrivals cq := rfl

@[simp] theorem arrivals_cons_received :
    arrivals (.received id seq :: cq) = (id, seq) :: arrivals cq := rfl

@[simp] theorem sentSeqs_concat_sent : sentSeqs (cq ++ [.sent seq]) = sentSeqs cq ++ [seq] := by
  rw [sentSeqs, List.filterMap_append]
  rfl

@[simp] theorem sentSeqs_concat_received : sentSeqs (cq ++ [.received id seq]) = sentSeqs cq := by
  rw [sentSeqs, List.filterMap_append]
  exact List.append_nil _

@[simp] theorem arrivals_concat_sent : arrivals (cq ++ [.sent seq]) = arrivals cq := by
  rw [arrivals, List.filterMap_append]
  exact List.append_nil _

@[simp] theorem arrivals_concat_received :
    arrivals (cq ++ [.received id seq]) = arrivals cq ++ [(id, seq)] := by
  rw [arrivals, List.filterMap_append]
  rfl

theorem sentSeqs_cons_of_isReceived {c : Completion} (h : c.IsReceived) :
    sentSeqs (c :: cq) = sentSeqs cq := by
  cases c with
  | sent seq => exact h.elim
  | received id seq => rfl

theorem arrivals_cons_of_not_isReceived {c : Completion} (h : ¬ c.IsReceived) :
    arrivals (c :: cq) = arrivals cq := by
  cases c with
  | sent seq => rfl
  | received id seq => exact absurd trivial h

theorem length_arrivals_cons_of_isReceived {c : Completion} (h : c.IsReceived) :
    (arrivals (c :: cq)).length = (arrivals cq).length + 1 := by
  cases c with
  | sent seq => exact h.elim
  | received id seq => rfl

end Completions

/-- With this configuration a `Send` can succeed. -/
def PoolConfig.Live (c : PoolConfig) : Prop := 0 < c.bufferCount ∧ 8 ≤ c.bufferSize

/-- The send that the thread is waiting for. -/
def SendPc.awaited : SendPc → List ℕ
  | .poll _ _ seq => [seq]
  | _ => []

/-- Where the sending thread is in the stream of chunks. -/
def SendPc.Ok (x : Calls) (p : Side) (e : Endpoint) : SendPc → Prop
  | .idle => (x.config p).Live → x.pos p e.posted = (e.sends, 0)
  | .alloc offset => (x.config p).Live → x.pos p e.posted = (e.sends, offset)
  | .stage offset _ => 0 < (x.config p).bufferCount ∧
      ((x.config p).Live → x.pos p e.posted = (e.sends, offset))
  | .post offset id => (x.config p).Live ∧ x.pos p e.posted = (e.sends, offset) ∧
      Holds e.mem id (x.chunk p e.posted)
  | .poll offset _ seq => e.posted = seq + 1 ∧ x.pos p seq = (e.sends, offset)
  | .release offset _ => ∃ seq, e.posted = seq + 1 ∧ x.pos p seq = (e.sends, offset)

/-- The buffer that `Recv` has taken from the completion queue. -/
def RecvPc.held : RecvPc → List ℕ
  | .copy _ _ id => [id]
  | .repost _ _ id => [id]
  | _ => []

/-- Where the receiving thread of `p.peer` is in the stream of chunks from `p`. -/
def RecvPc.Ok (x : Calls) (p : Side) (e : Endpoint) : RecvPc → Prop
  | .idle => x.pos p e.recvPolls.length = (e.recvs, 0)
  | .poll offset got => x.pos p e.recvPolls.length = (e.recvs, offset) ∧
      got = (x.data p e.recvs).take offset
  | .copy offset got id => ∃ j, e.recvPolls.length = j + 1 ∧ x.pos p j = (e.recvs, offset) ∧
      got = (x.data p e.recvs).take offset ∧ Holds e.mem id (x.chunk p j) ∧ e.unread id = true
  | .repost offset got _ => ∃ j, e.recvPolls.length = j + 1 ∧ x.pos p j = (e.recvs, offset) ∧
      got = (x.data p e.recvs).take (offset + (x.sendChunk p e.recvs offset).length) ∧
      x.recvSize p.peer e.recvs offset = (x.sendChunk p e.recvs offset).length

/-- Where a thread is depends on the counters of its endpoint and on the buffer it
is working on. -/
theorem SendPc.Ok.congr {x : Calls} {p : Side} {e e' : Endpoint} {pc : SendPc}
    (h : pc.Ok x p e) (hposted : e'.posted = e.posted) (hsends : e'.sends = e.sends)
    (hmem : ∀ offset id, pc = .post offset id → ∀ chunk, Holds e.mem id chunk →
      Holds e'.mem id chunk) : pc.Ok x p e' := by
  cases pc with
  | idle => rwa [Ok, hposted, hsends]
  | alloc offset => rwa [Ok, hposted, hsends]
  | stage offset id => rwa [Ok, hposted, hsends]
  | post offset id =>
      obtain ⟨hlive, hpos, hchunk⟩ := h
      rw [Ok, hposted, hsends]
      exact ⟨hlive, hpos, hmem offset id rfl _ hchunk⟩
  | poll offset id seq => rwa [Ok, hposted, hsends]
  | release offset id => rwa [Ok, hposted, hsends]

theorem RecvPc.Ok.congr {x : Calls} {p : Side} {e e' : Endpoint} {pc : RecvPc}
    (h : pc.Ok x p e) (hpolls : e'.recvPolls = e.recvPolls) (hrecvs : e'.recvs = e.recvs)
    (hmem : ∀ id ∈ pc.held, ∀ chunk, Holds e.mem id chunk ∧ e.unread id = true →
      Holds e'.mem id chunk ∧ e'.unread id = true) : pc.Ok x p e' := by
  cases pc with
  | idle => rwa [Ok, hpolls, hrecvs]
  | poll offset got => rwa [Ok, hpolls, hrecvs]
  | copy offset got id =>
      obtain ⟨j, hj, hpos, hgot, hchunk⟩ := h
      rw [Ok, hpolls, hrecvs]
      exact ⟨j, hj, hpos, hgot, hmem id (List.mem_singleton_self id) _ hchunk⟩
  | repost offset got id => rwa [Ok, hpolls, hrecvs]

/-- The sending half of the endpoint `p`. -/
structure SendSide (x : Calls) (p : Side) (e : Endpoint) : Prop where
  pc : e.sendPc.Ok x p e
  /-- A send is posted, pending or completed only while the thread waits for it. -/
  awaited : e.sendQueue.map SendWr.seq ++ e.pending ++ sentSeqs e.cq = e.sendPc.awaited
  live : 0 < e.posted → (x.config p).Live
  small : ∀ j < e.posted, (x.chunk p j).length + 8 < 2 ^ 32
  queue : ∀ w ∈ e.sendQueue,
    w.len = 8 + (x.chunk p w.seq).length ∧ Holds e.mem w.id (x.chunk p w.seq)
  polls : ∀ q ∈ e.sendPolls, q.2 = .sent q.1

/-- The receiving half of the endpoint `p.peer`. -/
structure RecvSide (x : Calls) (p : Side) (e : Endpoint) : Prop where
  pc : e.recvPc.Ok x p e
  nodup : (e.recvQueue ++ (arrivals e.cq).map Prod.fst ++ e.recvPc.held).Nodup
  bound : ∀ id ∈ e.recvQueue ++ (arrivals e.cq).map Prod.fst ++ e.recvPc.held,
    id < (x.config p.peer).bufferCount
  arrived : ∀ a ∈ arrivals e.cq, Holds e.mem a.1 (x.chunk p a.2) ∧ e.unread a.1 = true
  order : (arrivals e.cq).map Prod.snd
    = List.range' e.recvPolls.length (arrivals e.cq).length
  polls : ∀ c ∈ e.recvPolls, c.IsReceived
  delivered : e.delivered = (List.range e.recvs).map (x.data p)

/-- The number of messages that have arrived at an endpoint. -/
def Endpoint.arrived (e : Endpoint) : ℕ := e.recvPolls.length + (arrivals e.cq).length

/-- What is between the sending half `e` of `p` and the receiving half `e'` of
`p.peer`. -/
structure Link (x : Calls) (p : Side) (e : Endpoint) (wire : List Message) (e' : Endpoint) :
    Prop where
  seqs : wire.map Message.seq ++ e.sendQueue.map SendWr.seq
    = List.range' e'.arrived (e.posted - e'.arrived)
  arrived_le : e'.arrived ≤ e.posted
  bytes : ∀ m ∈ wire, m.bytes = frame (x.chunk p m.seq)

end MiniCcl.TransportRdma
