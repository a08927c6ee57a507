/-
MiniCcl/RdmaEndpoints.lean

One endpoint in a run where every operation consumes its own completion.

`PollCompletion` takes the oldest entry of the completion queue without looking at
its kind, and `Send` stages its chunk in a buffer that may be in the hands of the
receiving side.  A step that polls its own completion (`PollsOwn`) and does not get in
the way of the other direction (`Undisturbed`) keeps the sending half of the endpoint
(`SendSide.step`) and the receiving half (`RecvSide.step`), and so do the steps of the
connection.
-/
import MiniCcl.RdmaStream

namespace MiniCcl.TransportRdma

open scoped List

/-! ### Conditions on a step -/

/-- The operation that a completion or a poll belongs to. -/
inductive Kind
  | send
  | recv
  deriving DecidableEq, Repr

def Completion.kind : Completion → Kind
  | sent _ => .send
  | received _ _ => .recv

/-- The kind of the entry that a step takes from the completion queue, if it is the
right one. -/
def Action.polls : Action → Option Kind
  | sendPoll => some .send
  | recvPoll => some .recv
  | _ => none

namespace Endpoint

variable {x : Calls} {p : Side} {e e' : Endpoint} {a : Action}

/-- The step does not get in the way of the other direction. -/
def Undisturbed (x : Calls) (p : Side) (e : Endpoint) : Action → Prop
  -- the buffer holds no message that `Recv` still has to read
  | .stage => ∀ offset id, e.sendPc = .stage offset id → e.unread id = false
  -- the length fits into the 32 bits of an SGE
  | .post => ∀ offset id, e.sendPc = .post offset id →
      (x.sendChunk p e.sends offset).length + 8 < 2 ^ 32
  -- the message does not overwrite a chunk that is still to be sent
  | .deliver => ∀ id, e.recvQueue.head? = some id → ¬ e.Staged id
  | _ => True

/-- If the step is a poll, the oldest completion is of the caller's kind. -/
def PollsOwn (e : Endpoint) (a : Action) : Prop :=
  ∀ k c, a.polls = some k → e.cq.head? = some c → c.kind = k

/-- What a step of an endpoint needs. -/
def Orderly (x : Calls) (p : Side) (e : Endpoint) (a : Action) : Prop :=
  e.Undisturbed x p a ∧ e.PollsOwn a

theorem PollsOwn.sent {c : Completion} {cq : List Completion} (h : e.PollsOwn .sendPoll)
    (hcq : e.cq = c :: cq) : ¬ c.IsReceived := by
  have hkind := h .send c rfl (by rw [hcq]; rfl)
  cases c with
  | sent seq => exact id
  | received id seq => cases hkind

theorem PollsOwn.received {c : Completion} {cq : List Completion} (h : e.PollsOwn .recvPoll)
    (hcq : e.cq = c :: cq) : c.IsReceived := by
  have hkind := h .recv c rfl (by rw [hcq]; rfl)
  cases c with
  | sent seq => cases hkind
  | received id seq => exact trivial

theorem pollsOwn_of_polls_eq_none (h : a.polls = none) : e.PollsOwn a := by
  intro k c hk
  rw [h] at hk
  cases hk

theorem pollsOwn_sendPoll {c : Completion} {cq : List Completion} (hcq : e.cq = c :: cq)
    (h : ¬ c.IsReceived) : e.PollsOwn .sendPoll := by
  intro k c' hk hc'
  rw [hcq] at hc'
  cases hk
  cases hc'
  cases c with
  | sent seq => rfl
  | received id seq => exact absurd trivial h

theorem pollsOwn_recvPoll {c : Completion} {cq : List Completion} (hcq : e.cq = c :: cq)
    (h : c.IsReceived) : e.PollsOwn .recvPoll := by
  intro k c' hk hc'
  rw [hcq] at hc'
  cases hk
  cases hc'
  cases c with
  | sent seq => exact h.elim
  | received id seq => rfl

end Endpoint

section Polls

variable {e : Endpoint} {c : Completion} {cq : List Completion}

/-- A poll of `Recv` leaves the completed sends. -/
theorem sentSeqs_of_recvPoll (hown : e.PollsOwn .recvPoll) (hcq : e.cq = c :: cq) :
    sentSeqs cq = sentSeqs e.cq := by
  rw [hcq]
  exact (sentSeqs_cons_of_isReceived cq (hown.received hcq)).symm

/-- A poll of `Send` leaves the received messages. -/
theorem arrivals_of_sendPoll (hown : e.PollsOwn .sendPoll) (hcq : e.cq = c :: cq) :
    arrivals cq = arrivals e.cq := by
  rw [hcq]
  exact (arrivals_cons_of_not_isReceived cq (hown.sent hcq)).symm

end Polls

/-! ### The sending half -/

section Send

variable {x : Calls} {p : Side} {e e' : Endpoint} {a : Action}

theorem length_sendChunk_le (x : Calls) (p : Side) (k offset : ℕ) (h : (x.config p).Live) :
    (x.sendChunk p k offset).length + 8 ≤ (x.config p).bufferSize := by
  have hpayload : (x.config p).maxPayload + 8 = (x.config p).bufferSize := by
    rw [PoolConfig.maxPayload, sizeSub, if_pos h.2, Nat.sub_add_cancel h.2]
  have hchunk : (x.sendChunk p k offset).length ≤ (x.config p).maxPayload := by
    rw [Calls.sendChunk, List.length_take]
    apply (min_le_left _ _).trans
    unfold chunkSize
    split_ifs with hsize
    · exact hsize
    · exact min_le_right _ _
  omega

theorem length_awaited_le (pc : SendPc) : pc.awaited.length ≤ 1 := by
  cases pc <;> simp [SendPc.awaited]

/-- A step that leaves the posted sends as they are. -/
theorem SendSide.congr (h : SendSide x p e) (hqueue : e'.sendQueue = e.sendQueue)
    (hpending : e'.pending = e.pending) (hcq : sentSeqs e'.cq = sentSeqs e.cq)
    (hposted : e'.posted = e.posted) (hpolls : e'.sendPolls = e.sendPolls)
    (hmem : ∀ w ∈ e.sendQueue, ∀ chunk, Holds e.mem w.id chunk → Holds e'.mem w.id chunk)
    (hawaited : e'.sendPc.awaited = e.sendPc.awaited) (hpc : e'.sendPc.Ok x p e') :
    SendSide x p e' where
  pc := hpc
  awaited := by
    rw [hqueue, hpending, hcq, hawaited]
    exact h.awaited
  live := by
    rw [hposted]
    exact h.live
  small := by
    rw [hposted]
    exact h.small
  queue := by
    intro w hw
    rw [hqueue] at hw
    exact ⟨(h.queue w hw).1, hmem w hw _ (h.queue w hw).2⟩
  polls := by
    rw [hpolls]
    exact h.polls

/-- Nothing is posted unless the thread waits for it. -/
theorem SendSide.sendQueue_eq_nil (h : SendSide x p e) (hpc : e.sendPc.awaited = []) :
    e.sendQueue = [] := by
  have hawaited := h.awaited
  rw [hpc, List.append_eq_nil_iff, List.append_eq_nil_iff] at hawaited
  exact List.map_eq_nil_iff.mp hawaited.1.1

/-- A send that is posted, pending or completed is the one that is waited for, and
there is no other. -/
theorem eq_of_awaited {pc : SendPc} {A B : List ℕ} {seq : ℕ} (h : A ++ seq :: B = pc.awaited) :
    A = [] ∧ B = [] ∧ pc.awaited = [seq] := by
  have hlen := length_awaited_le pc
  rw [← h, List.length_append, List.length_cons] at hlen
  obtain rfl : A = [] := List.eq_nil_of_length_eq_zero (by omega)
  obtain rfl : B = [] := List.eq_nil_of_length_eq_zero (by omega)
  exact ⟨rfl, rfl, h.symm⟩

theorem not_live_of_allocateBuffer (hone : e.OneSend) (hbuffer : e.sendPc.buffer = none)
    (h : e.allocateBuffer (x.config p) = none) : ¬ (x.config p).Live := by
  intro hlive
  have hnone := List.find?_eq_none.mp h 0 (List.mem_range.mpr hlive.1)
  rw [hone.free hbuffer 0] at hnone
  exact hnone rfl

/-- `Send` posts its chunk. -/
theorem SendSide.post (h : SendSide x p e) {offset id : ℕ} (hpc : e.sendPc = .post offset id)
    (hsmall : (x.sendChunk p e.sends offset).length + 8 < 2 ^ 32) :
    SendSide x p { e with
      sendQueue := e.sendQueue ++
        [⟨id, ((x.sendChunk p e.sends offset).length + 8) % 2 ^ 32, e.posted⟩]
      sendPc := .poll offset id e.posted
      posted := e.posted + 1 } := by
  have hok := h.pc
  have hawaited := h.awaited
  rw [hpc] at hok hawaited
  obtain ⟨hlive, hpos, hchunk⟩ := hok
  -- the thread waits for nothing, so nothing else is posted
  have hnil : e.sendQueue = [] := h.sendQueue_eq_nil (by rw [hpc]; rfl)
  constructor
  · exact ⟨rfl, hpos⟩
  · show (e.sendQueue ++ [_]).map SendWr.seq ++ e.pending ++ sentSeqs e.cq = [e.posted]
    rw [hnil] at hawaited ⊢
    rw [List.append_assoc, show e.pending ++ sentSeqs e.cq = [] from hawaited]
    rfl
  · exact fun _ => hlive
  · intro j hj
    rcases Nat.lt_succ_iff_lt_or_eq.mp hj with hj | rfl
    · exact h.small j hj
    · rwa [Calls.chunk_eq hpos]
  · intro w hw
    rw [show e.sendQueue ++ [_] = [_] from by rw [hnil]; rfl, List.mem_singleton] at hw
    subst hw
    refine ⟨?_, hchunk⟩
    show (_ + 8) % 2 ^ 32 = _
    rw [Nat.mod_eq_of_lt hsmall, Calls.chunk_eq hpos, Nat.add_comm]
  · exact h.polls

/-- `PollCompletion` of `Send` takes the completion of a send. -/
theorem SendSide.sendPoll (h : SendSide x p e) {offset id seq seq' : ℕ} {cq : List Completion}
    (hpc : e.sendPc = .poll offset id seq) (hcq : e.cq = .sent seq' :: cq) :
    SendSide x p { e with
      cq := cq
      sendPc := .release offset id
      sendPolls := e.sendPolls ++ [(seq, .sent seq')] } := by
  have hok := h.pc
  have hawaited := h.awaited
  rw [hpc] at hok hawaited
  rw [hcq, sentSeqs_cons_sent] at hawaited
  -- there is only one send that it can be
  obtain ⟨hbefore, hafter, heq⟩ := eq_of_awaited hawaited
  have hseq : seq = seq' := List.head_eq_of_cons_eq heq
  constructor
  · exact ⟨seq, hok⟩
  · show e.sendQueue.map SendWr.seq ++ e.pending ++ sentSeqs cq = []
    rw [hbefore, hafter]
    rfl
  · exact h.live
  · exact h.small
  · exact h.queue
  · intro q hq
    rcases List.mem_append.mp hq with hq | hq
    · exact h.polls q hq
    · rw [List.mem_singleton.mp hq, hseq]

/-- The connection completes a send. -/
theorem SendSide.complete (h : SendSide x p e) {seq : ℕ} {pending : List ℕ}
    (hpending : e.pending = seq :: pending) :
    SendSide x p { e with pending := pending, cq := e.cq ++ [.sent seq] } := by
  have hawaited := h.awaited
  rw [hpending, List.append_assoc, List.cons_append] at hawaited
  obtain ⟨hbefore, hafter, heq⟩ := eq_of_awaited hawaited
  obtain ⟨hnil, hsent⟩ := List.append_eq_nil_iff.mp hafter
  constructor
  · exact h.pc.congr rfl rfl fun _ _ _ _ hchunk => hchunk
  · show e.sendQueue.map SendWr.seq ++ pending ++ sentSeqs (e.cq ++ [.sent seq])
      = e.sendPc.awaited
    rw [hbefore, hnil, sentSeqs_concat_sent, hsent, heq]
    rfl
  · exact h.live
  · exact h.small
  · exact h.queue
  · exact h.polls

/-- After a release the thread is at the next chunk. -/
theorem SendSide.pos_posted (h : SendSide x p e) {offset id : ℕ}
    (hpc : e.sendPc = .release offset id) :
    x.pos p e.posted = x.next p (e.sends, offset) := by
  have hok := h.pc
  rw [hpc] at hok
  obtain ⟨seq, hposted, hpos⟩ := hok
  rw [hposted, Calls.pos, hpos]

/-- The steps of the endpoint `p`. -/
theorem SendSide.step (h : SendSide x p e) (hone : e.OneSend) (hord : e.Orderly x p a)
    (hstep : Endpoint.Step x p e a e') : SendSide x p e' := by
  have hok := h.pc
  have hkeep : ∀ w ∈ e.sendQueue, ∀ chunk, Holds e.mem w.id chunk → Holds e.mem w.id chunk :=
    fun _ _ _ hchunk => hchunk
  cases hstep with
  | startSend hpc =>
      rw [hpc] at hok
      exact h.congr rfl rfl rfl rfl rfl hkeep (by rw [hpc]; rfl) hok
  | alloc hpc hid =>
      rw [hpc] at hok
      have hcount := (Endpoint.allocateBuffer_eq (hone.free (by rw [hpc]; rfl)) hid).2
      exact h.congr rfl rfl rfl rfl rfl hkeep (by rw [hpc]; rfl) ⟨hcount, hok⟩
  | allocFail hpc hid =>
      have hlive := not_live_of_allocateBuffer hone (by rw [hpc]; rfl) hid
      exact h.congr rfl rfl rfl rfl rfl hkeep (by rw [hpc]; rfl) fun hl => absurd hl hlive
  | @stage offset id hpc hfit =>
      rw [hpc] at hok
      have hlive : (x.config p).Live := ⟨hok.1, by omega⟩
      have hpos := hok.2 hlive
      have hnil : e.sendQueue = [] := h.sendQueue_eq_nil (by rw [hpc]; rfl)
      refine h.congr rfl rfl rfl rfl rfl ?_ (by rw [hpc]; rfl) ⟨hlive, hpos, ?_⟩
      · intro w hw
        rw [hnil] at hw
        cases hw
      · rw [Calls.chunk_eq hpos]
        exact holds_stageChunk e id _
  | stageFail hpc hfit =>
      -- a live configuration has room for every chunk
      refine h.congr rfl rfl rfl rfl rfl hkeep (by rw [hpc]; rfl) ?_
      intro hlive
      exact absurd (length_sendChunk_le x p _ _ hlive) hfit
  | post hpc => exact h.post hpc (hord.1 _ _ hpc)
  | @sendPoll offset id seq c cq hpc hcq =>
      have hkind := hord.2.sent hcq
      cases c with
      | received id' seq' => exact absurd trivial hkind
      | sent seq' => exact h.sendPoll hpc hcq
  | releaseNext hpc hmore =>
      refine h.congr rfl rfl rfl rfl rfl hkeep (by rw [hpc]; rfl) fun _ => ?_
      exact (h.pos_posted hpc).trans (if_pos hmore)
  | releaseLast hpc hmore =>
      refine h.congr rfl rfl rfl rfl rfl hkeep (by rw [hpc]; rfl) fun _ => ?_
      exact (h.pos_posted hpc).trans (if_neg hmore)
  | startRecv hpc => exact h.congr rfl rfl rfl rfl rfl hkeep rfl hok
  | recvPoll hpc hcq hid =>
      have hsent := sentSeqs_of_recvPoll hord.2 hcq
      exact h.congr rfl rfl hsent rfl rfl hkeep rfl hok
  | recvPollFail hpc hcq hid =>
      have hsent := sentSeqs_of_recvPoll hord.2 hcq
      exact h.congr rfl rfl hsent rfl rfl hkeep rfl hok
  | copy hpc hsize => exact h.congr rfl rfl rfl rfl rfl hkeep rfl hok
  | copyFail hpc hsize => exact h.congr rfl rfl rfl rfl rfl hkeep rfl hok
  | repostNext hpc hmore => exact h.congr rfl rfl rfl rfl rfl hkeep rfl hok
  | repostLast hpc hmore => exact h.congr rfl rfl rfl rfl rfl hkeep rfl hok
  | complete hpending => exact h.complete hpending

/-- The NIC reads a posted send. -/
theorem SendSide.transmitted (h : SendSide x p e) {w : SendWr} {sendQueue : List SendWr}
    (hqueue : e.sendQueue = w :: sendQueue) : SendSide x p (e.transmitted w sendQueue) := by
  have hawaited := h.awaited
  rw [hqueue, List.map_cons, List.cons_append, List.cons_append] at hawaited
  obtain ⟨-, hafter, heq⟩ := eq_of_awaited (A := []) hawaited
  rw [List.append_assoc, List.append_eq_nil_iff, List.append_eq_nil_iff] at hafter
  obtain ⟨hrest, hpending, hsent⟩ := hafter
  constructor
  · exact h.pc.congr rfl rfl fun _ _ _ _ hchunk => hchunk
  · show sendQueue.map SendWr.seq ++ (e.pending ++ [w.seq]) ++ sentSeqs e.cq = e.sendPc.awaited
    rw [hrest, hpending, hsent, heq]
    rfl
  · exact h.live
  · exact h.small
  · intro w' hw'
    apply h.queue w'
    rw [hqueue]
    exact List.mem_cons_of_mem w hw'
  · exact h.polls

/-- A message arrives at the sending endpoint. -/
theorem SendSide.received (h : SendSide x p e) {id : ℕ} (hstaged : ¬ e.Staged id)
    (recvQueue : List ℕ) (msg : Message) : SendSide x p (e.received id recvQueue msg) := by
  refine h.congr rfl rfl (sentSeqs_concat_received ..) rfl rfl ?_ rfl (h.pc.congr rfl rfl ?_)
  · intro w hw chunk hchunk
    exact hchunk.write (fun hid => hstaged (.inr ⟨w, hw, hid⟩)) ..
  · intro offset id' hpc chunk hchunk
    apply hchunk.write
    rintro rfl
    exact hstaged (.inl ⟨offset, hpc⟩)

end Send

/-! ### The receiving half -/

section Receive

variable {x : Calls} {p : Side} {e e' : Endpoint} {a : Action}

/-- A step that leaves the received messages and the receiving thread as they are. -/
theorem RecvSide.congr (h : RecvSide x p e) (hqueue : e'.recvQueue = e.recvQueue)
    (hcq : arrivals e'.cq = arrivals e.cq) (hrecvs : e'.recvs = e.recvs)
    (hrecvPc : e'.recvPc = e.recvPc) (hunread : e'.unread = e.unread)
    (hpolls : e'.recvPolls = e.recvPolls) (hdelivered : e'.delivered = e.delivered)
    (hmem : ∀ id, e.unread id = true → ∀ chunk, Holds e.mem id chunk → Holds e'.mem id chunk) :
    RecvSide x p e' where
  pc := by
    rw [hrecvPc]
    apply h.pc.congr hpolls hrecvs
    rintro id - chunk ⟨hchunk, hread⟩
    rw [hunread]
    exact ⟨hmem id hread chunk hchunk, hread⟩
  nodup := by
    rw [hqueue, hcq, hrecvPc]
    exact h.nodup
  bound := by
    rw [hqueue, hcq, hrecvPc]
    exact h.bound
  arrived := by
    intro a ha
    rw [hcq] at ha
    rw [hunread]
    exact ⟨hmem a.1 (h.arrived a ha).2 _ (h.arrived a ha).1, (h.arrived a ha).2⟩
  order := by
    rw [hcq, hpolls]
    exact h.order
  polls := by
    rw [hpolls]
    exact h.polls
  delivered := by
    rw [hdelivered, hrecvs]
    exact h.delivered

theorem Completion.IsReceived.exists {c : Completion} (h : c.IsReceived) :
    ∃ id seq, c = .received id seq := by
  cases c with
  | sent seq => exact h.elim
  | received id seq => exact ⟨id, seq, rfl⟩

theorem RecvSide.bound_received (h : RecvSide x p e) {id seq : ℕ} {cq : List Completion}
    (hcq : e.cq = .received id seq :: cq) : id < (x.config p.peer).bufferCount := by
  apply h.bound id
  rw [hcq, arrivals_cons_received]
  exact List.mem_append_left _ (List.mem_append_right _ List.mem_cons_self)

theorem RecvSide.bufferId_eq (h : RecvSide x p e) {id seq : ℕ} {cq : List Completion}
    (hcq : e.cq = .received id seq :: cq) : (Completion.received id seq).bufferId = id := by
  apply Completion.bufferId_received
  calc id < (x.config p.peer).bufferCount := h.bound_received hcq
    _ < 2 ^ 31 := (x.config p.peer).bufferCount_lt
    _ ≤ 2 ^ 32 := by decide

/-- `PollCompletion` of `Recv` takes the oldest received message. -/
theorem RecvSide.recvPoll (h : RecvSide x p e) {offset id seq : ℕ} {got : List UInt8}
    {cq : List Completion} (hpc : e.recvPc = .poll offset got)
    (hcq : e.cq = .received id seq :: cq) :
    RecvSide x p { e with
      cq := cq
      recvPc := .copy offset got id
      recvPolls := e.recvPolls ++ [.received id seq] } := by
  have hok := h.pc
  have hnodup := h.nodup
  have hbound := h.bound
  have horder := h.order
  have harrived := h.arrived
  rw [hpc] at hok hnodup hbound
  rw [hcq, arrivals_cons_received] at hnodup hbound horder harrived
  obtain ⟨hseq, hrest⟩ := List.cons.inj horder
  have hperm : e.recvQueue ++ ((id, seq) :: arrivals cq).map Prod.fst ++ []
      ~ e.recvQueue ++ (arrivals cq).map Prod.fst ++ [id] := by
    rw [List.append_nil, List.append_assoc]
    exact (List.perm_append_singleton id _).symm.append_left _
  obtain ⟨hchunk, hread⟩ := harrived (id, seq) List.mem_cons_self
  have hseq : seq = e.recvPolls.length := hseq
  constructor
  · refine ⟨e.recvPolls.length, List.length_append, hok.1, hok.2, ?_, hread⟩
    rwa [← hseq]
  · exact hperm.nodup_iff.mp hnodup
  · intro i hi
    exact hbound i (hperm.mem_iff.mpr hi)
  · intro a ha
    exact harrived a (List.mem_cons_of_mem _ ha)
  · rw [List.length_append]
    exact hrest
  · intro c hc
    rcases List.mem_append.mp hc with hc | hc
    · exact h.polls c hc
    · rw [List.mem_singleton.mp hc]
      trivial
  · exact h.delivered

/-- `Recv` copies the message out of its buffer. -/
theorem RecvSide.copy (h : RecvSide x p e)
    (hsmall : ∀ j < e.recvPolls.length, (x.chunk p j).length + 8 < 2 ^ 32)
    {offset id : ℕ} {got : List UInt8} (hpc : e.recvPc = .copy offset got id)
    (hheader : e.header id = x.recvSize p.peer e.recvs offset) :
    RecvSide x p { e with
      recvPc := .repost offset (got ++ e.payload id (x.recvSize p.peer e.recvs offset)) id
      unread := Function.update e.unread id false } := by
  have hok := h.pc
  have hnodup := h.nodup
  have hbound := h.bound
  rw [hpc] at hok hnodup hbound
  obtain ⟨j, hj, hpos, hgot, hchunk, -⟩ := hok
  obtain ⟨hlength, hpayload⟩ := hchunk.read (hsmall j (by omega))
  rw [hlength] at hheader
  rw [Calls.chunk_eq hpos] at hheader hpayload
  constructor
  · refine ⟨j, hj, hpos, ?_, hheader.symm⟩
    rw [← hheader, hpayload, hgot]
    exact Calls.take_append_sendChunk x p e.recvs offset
  · exact hnodup
  · exact hbound
  · intro a ha
    -- the other messages are in other buffers
    have hne : a.1 ≠ id := by
      rintro rfl
      have hmem : a.1 ∈ e.recvQueue ++ (arrivals e.cq).map Prod.fst :=
        List.mem_append_right _ (List.mem_map_of_mem ha)
      exact (List.nodup_append.mp hnodup).2.2 a.1 hmem a.1 (List.mem_singleton_self _) rfl
    refine ⟨(h.arrived a ha).1, ?_⟩
    show Function.update e.unread id false a.1 = true
    rw [Function.update_of_ne hne]
    exact (h.arrived a ha).2
  · exact h.order
  · exact h.polls
  · exact h.delivered

/-- `Recv` posts the buffer again. -/
theorem RecvSide.repost (h : RecvSide x p e) {offset id : ℕ} {got : List UInt8}
    (hpc : e.recvPc = .repost offset got id) {recvs : ℕ} {pc : RecvPc}
    {delivered : List (List UInt8)} (hheld : pc.held = [])
    (hok : pc.Ok x p
      { e with recvQueue := e.recvQueue ++ [id], recvs, recvPc := pc, delivered })
    (hdelivered : delivered = (List.range recvs).map (x.data p)) :
    RecvSide x p
      { e with recvQueue := e.recvQueue ++ [id], recvs, recvPc := pc, delivered } := by
  have hnodup := h.nodup
  have hbound := h.bound
  rw [hpc] at hnodup hbound
  have hperm : e.recvQueue ++ (arrivals e.cq).map Prod.fst ++ [id]
      ~ e.recvQueue ++ [id] ++ (arrivals e.cq).map Prod.fst ++ pc.held := by
    rw [hheld, List.append_nil, List.append_assoc, List.append_assoc]
    exact List.perm_append_comm.append_left _
  constructor
  · exact hok
  · exact hperm.nodup_iff.mp hnodup
  · intro i hi
    exact hbound i (hperm.mem_iff.mpr hi)
  · exact h.arrived
  · exact h.order
  · exact h.polls
  · exact hdelivered

variable (hbuffer : (x.config p.peer).bufferSize = (x.config p).bufferSize)
  (hsize : ∀ k, x.size p.peer k = (x.data p k).length)
  (hsmall : ∀ j < e.recvPolls.length, (x.chunk p j).length + 8 < 2 ^ 32)
include hbuffer hsize hsmall

/-- The size header is the size that `Recv` expects. -/
theorem RecvSide.header_eq (h : RecvSide x p e) {offset id : ℕ} {got : List UInt8}
    (hpc : e.recvPc = .copy offset got id) : e.header id = x.recvSize p.peer e.recvs offset := by
  have hok := h.pc
  rw [hpc] at hok
  obtain ⟨j, hj, hpos, -, hchunk, -⟩ := hok
  rw [(hchunk.read (hsmall j (by omega))).1, Calls.recvSize_eq hbuffer (hsize _) hpos,
    Calls.chunk_eq hpos]

/-- The steps of the endpoint `p.peer`. -/
theorem RecvSide.step (h : RecvSide x p e) (hord : e.Orderly x p.peer a)
    (hstep : Endpoint.Step x p.peer e a e') : RecvSide x p e' := by
  have hok := h.pc
  have hnodup := h.nodup
  have hbound := h.bound
  have hkeep : ∀ id, e.unread id = true → ∀ chunk, Holds e.mem id chunk → Holds e.mem id chunk :=
    fun _ _ _ hchunk => hchunk
  cases hstep with
  | startSend hpc => exact h.congr rfl rfl rfl rfl rfl rfl rfl hkeep
  | alloc hpc hid => exact h.congr rfl rfl rfl rfl rfl rfl rfl hkeep
  | allocFail hpc hid => exact h.congr rfl rfl rfl rfl rfl rfl rfl hkeep
  | @stage offset id hpc hfit =>
      have hfree := hord.1 offset id hpc
      refine h.congr rfl rfl rfl rfl rfl rfl rfl fun id' hread chunk hchunk => ?_
      apply hchunk.stageChunk
      rintro rfl
      rw [hfree] at hread
      cases hread
  | stageFail hpc hfit => exact h.congr rfl rfl rfl rfl rfl rfl rfl hkeep
  | post hpc => exact h.congr rfl rfl rfl rfl rfl rfl rfl hkeep
  | sendPoll hpc hcq =>
      have harrivals := arrivals_of_sendPoll hord.2 hcq
      exact h.congr rfl harrivals rfl rfl rfl rfl rfl hkeep
  | releaseNext hpc hmore => exact h.congr rfl rfl rfl rfl rfl rfl rfl hkeep
  | releaseLast hpc hmore => exact h.congr rfl rfl rfl rfl rfl rfl rfl hkeep
  | startRecv hpc =>
      rw [hpc] at hok hnodup hbound
      exact ⟨⟨hok, rfl⟩, hnodup, hbound, h.arrived, h.order, h.polls, h.delivered⟩
  | @recvPoll offset got c cq hpc hcq hid =>
      obtain ⟨id, seq, rfl⟩ := Completion.IsReceived.exists (hord.2.received hcq)
      rw [h.bufferId_eq hcq] at hid ⊢
      exact h.recvPoll hpc hcq
  | @recvPollFail offset got c cq hpc hcq hid =>
      obtain ⟨id, seq, rfl⟩ := Completion.IsReceived.exists (hord.2.received hcq)
      rw [h.bufferId_eq hcq] at hid
      exact absurd (h.bound_received hcq) hid
  | @copy offset id got hpc hheader => exact h.copy hsmall hpc hheader
  | copyFail hpc hheader => exact absurd (h.header_eq hbuffer hsize hsmall hpc) hheader
  | @repostNext offset id got hpc hmore =>
      rw [hpc] at hok
      obtain ⟨j, hj, hpos, hgot, hchunk⟩ := hok
      rw [hchunk] at hmore ⊢
      rw [hsize] at hmore
      refine h.repost hpc rfl ⟨?_, hgot⟩ h.delivered
      rw [hj]
      exact Calls.pos_next hpos hmore
  | @repostLast offset id got hpc hmore =>
      rw [hpc] at hok
      obtain ⟨j, hj, hpos, hgot, hchunk⟩ := hok
      rw [hchunk, hsize] at hmore
      refine h.repost hpc rfl ?_ ?_
      · rw [RecvPc.Ok, hj]
        exact Calls.pos_last hpos hmore
      · rw [h.delivered, hgot, List.take_of_length_le (Nat.le_of_not_lt hmore),
          List.range_succ, List.map_append]
        rfl
  | @complete seq pending hpending =>
      exact h.congr rfl (arrivals_concat_sent ..) rfl rfl rfl rfl rfl hkeep

omit hbuffer hsize hsmall in
/-- A message arrives. -/
theorem RecvSide.received (h : RecvSide x p e) {id : ℕ} {recvQueue : List ℕ}
    (hqueue : e.recvQueue = id :: recvQueue) {msg : Message} (hseq : msg.seq = e.arrived)
    (hbytes : msg.bytes = frame (x.chunk p msg.seq)) :
    RecvSide x p (e.received id recvQueue msg) := by
  have hnodup := h.nodup
  have hbound := h.bound
  rw [hqueue] at hnodup hbound
  have hperm : id :: recvQueue ++ (arrivals e.cq).map Prod.fst ++ e.recvPc.held
      ~ recvQueue ++ (arrivals (e.cq ++ [.received id msg.seq])).map Prod.fst
        ++ e.recvPc.held := by
    rw [arrivals_concat_received, List.map_append, ← List.append_assoc]
    exact (List.perm_append_singleton id _).symm.append_right _
  have hfresh : id ∉ recvQueue ++ (arrivals e.cq).map Prod.fst ++ e.recvPc.held :=
    (List.nodup_cons.mp hnodup).1
  -- what the other buffers hold stays
  have hother : ∀ i ∈ (arrivals e.cq).map Prod.fst ++ e.recvPc.held, ∀ chunk,
      Holds e.mem i chunk ∧ e.unread i = true →
      Holds (e.received id recvQueue msg).mem i chunk ∧
        (e.received id recvQueue msg).unread i = true := by
    rintro i hi chunk ⟨hchunk, hread⟩
    have hne : i ≠ id := by
      rintro rfl
      rw [List.append_assoc] at hfresh
      exact hfresh (List.mem_append_right _ hi)
    refine ⟨hchunk.write hne .., ?_⟩
    show Function.update e.unread id true i = true
    rwa [Function.update_of_ne hne]
  constructor
  · exact h.pc.congr rfl rfl fun i hi => hother i (List.mem_append_right _ hi)
  · exact hperm.nodup_iff.mp hnodup
  · intro i hi
    exact hbound i (hperm.mem_iff.mpr hi)
  · intro a ha
    have ha : a ∈ arrivals (e.cq ++ [.received id msg.seq]) := ha
    rw [arrivals_concat_received, List.mem_append, List.mem_singleton] at ha
    rcases ha with ha | rfl
    · exact hother a.1 (List.mem_append_left _ (List.mem_map_of_mem ha)) _ (h.arrived a ha)
    · constructor
      · show Holds (e.mem.write ⟨id, 0, msg.bytes.length⟩ msg.bytes) id (x.chunk p msg.seq)
        rw [hbytes]
        exact holds_write e.mem id (x.chunk p msg.seq)
      · show Function.update e.unread id true id = true
        exact Function.update_self ..
  · show (arrivals (e.cq ++ [.received id msg.seq])).map Prod.snd
      = List.range' e.recvPolls.length (arrivals (e.cq ++ [.received id msg.seq])).length
    rw [arrivals_concat_received, List.map_append, h.order, List.length_append,
      List.length_singleton, List.range'_1_concat, hseq]
    rfl
  · exact h.polls
  · exact h.delivered

end Receive

end MiniCcl.TransportRdma
