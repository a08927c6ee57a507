/-
MiniCcl/RdmaReceive.lean

What becomes of the receive buffers of an endpoint that only calls `Recv`.

The sizes of the calls and the messages that arrive are arbitrary.  A message takes
a buffer out of the posted ones, `PollCompletion` hands it to `Recv`, and
`RecvBufferPoolInternal` posts it again, unless the size header is not the expected
one: then it returns at once.  So the pool is full after every return of `Recv` if
and only if no size check has failed: `receive_pool_iff`.
-/
import MiniCcl.RdmaStream

namespace MiniCcl.TransportRdma

open scoped List

/-- A step of a `Recv` call. -/
def Action.OfRecv : Action → Prop
  | startRecv => True
  | recvPoll => True
  | copy => True
  | repost => True
  | _ => False

/-- The steps of an endpoint `p` that only receives: those of its `Recv` calls, and
the arrival of any message that fits into the oldest posted buffer. -/
inductive Receives (x : Calls) (p : Side) : Lts Endpoint Action
  | own {e e' : Endpoint} {a : Action} (ha : a.OfRecv) (h : Endpoint.Step x p e a e') :
      Receives x p e a e'
  | deliver {e : Endpoint} {msg : Message} {id : ℕ} {recvQueue : List ℕ}
      (hqueue : e.recvQueue = id :: recvQueue)
      (hfit : msg.bytes.length ≤ (x.config p).bufferSize % 2 ^ 32) :
      Receives x p e .deliver (e.received id recvQueue msg)

namespace Endpoint

variable {x : Calls} {p : Side} {c : PoolConfig} {e e' : Endpoint} {a : Action}

/-- Each buffer is the target of one posted receive WR, or it holds a message whose
completion is in the CQ. -/
def PoolFull (c : PoolConfig) (e : Endpoint) : Prop :=
  e.recvQueue ++ (arrivals e.cq).map Prod.fst ~ List.range c.bufferCount

/-- After a return of `Recv` the pool is full. -/
def FullOnReturn (c : PoolConfig) (e : Endpoint) : Prop := e.recvPc = .idle → e.PoolFull c

/-- The size check of `RecvBufferPoolInternal` does not fail. -/
def SizeMatches (x : Calls) (p : Side) (e : Endpoint) : Action → Prop
  | .copy => ∀ offset got id, e.recvPc = .copy offset got id →
      e.header id = x.recvSize p e.recvs offset
  | _ => True

/-- Counting the buffer that `Recv` is at work on, none is missing. -/
structure PoolHeld (c : PoolConfig) (e : Endpoint) : Prop where
  received : ∀ m ∈ e.cq, m.IsReceived
  perm : e.recvQueue ++ (arrivals e.cq).map Prod.fst ++ e.recvPc.held ~ List.range c.bufferCount

theorem PoolHeld.full (h : e.PoolHeld c) (hheld : e.recvPc.held = []) : e.PoolFull c := by
  have hperm := h.perm
  rwa [hheld, List.append_nil] at hperm

/-- With a buffer in hand, the rest is not a full pool. -/
theorem PoolHeld.not_full (h : e.PoolHeld c) {id : ℕ} (hheld : e.recvPc.held = [id])
    (hqueue : e'.recvQueue = e.recvQueue) (hcq : e'.cq = e.cq) : ¬ e'.PoolFull c := by
  intro hfull
  have hperm := h.perm
  rw [PoolFull, hqueue, hcq] at hfull
  rw [hheld] at hperm
  have hlen := (hperm.trans hfull.symm).length_eq
  rw [List.length_append, List.length_singleton] at hlen
  exact Nat.succ_ne_self _ hlen

/-- The oldest completion is of a receive into a buffer of the pool. -/
theorem PoolHeld.head (h : e.PoolHeld c) {m : Completion} {cq : List Completion}
    (hcq : e.cq = m :: cq) :
    ∃ id seq, m = .received id seq ∧ id < c.bufferCount ∧ m.bufferId = id := by
  have hm := h.received m (by rw [hcq]; exact List.mem_cons_self)
  have hperm := h.perm
  cases m with
  | sent seq => exact hm.elim
  | received id seq =>
      have hid : id ∈ e.recvQueue ++ (arrivals e.cq).map Prod.fst ++ e.recvPc.held := by
        rw [hcq, arrivals_cons_received]
        simp
      have hlt : id < c.bufferCount := List.mem_range.mp (hperm.mem_iff.mp hid)
      refine ⟨id, seq, rfl, hlt, Completion.bufferId_received ?_ seq⟩
      calc id < c.bufferCount := hlt
        _ < 2 ^ 31 := c.bufferCount_lt
        _ ≤ 2 ^ 32 := by decide

/-- A completed message goes from the CQ into the hands of `Recv`. -/
theorem PoolHeld.recvPoll (h : e.PoolHeld c) {offset : ℕ} {got : List UInt8} {m : Completion}
    {cq : List Completion} (hpc : e.recvPc = .poll offset got) (hcq : e.cq = m :: cq) :
    PoolHeld c { e with
      cq := cq
      recvPc := .copy offset got m.bufferId
      recvPolls := e.recvPolls ++ [m] } := by
  obtain ⟨id, seq, rfl, -, hid⟩ := h.head hcq
  have hreceived := h.received
  have hperm := h.perm
  rw [hcq] at hreceived
  rw [hcq, hpc, arrivals_cons_received] at hperm
  constructor
  · exact fun m hm => hreceived m (List.mem_cons_of_mem _ hm)
  · rw [hid]
    refine List.Perm.trans ?_ hperm
    show e.recvQueue ++ (arrivals cq).map Prod.fst ++ [id]
      ~ e.recvQueue ++ (id :: (arrivals cq).map Prod.fst) ++ []
    rw [List.append_nil, List.append_assoc]
    exact (List.perm_append_singleton id _).append_left _

/-- The buffer in the hands of `Recv` is posted. -/
theorem PoolHeld.repost (h : e.PoolHeld c) {offset id : ℕ} {got : List UInt8}
    (hpc : e.recvPc = .repost offset got id) {recvs : ℕ} {pc : RecvPc}
    {delivered : List (List UInt8)} (hheld : pc.held = []) :
    PoolHeld c { e with recvQueue := e.recvQueue ++ [id], recvs, recvPc := pc, delivered } := by
  have hperm := h.perm
  rw [hpc] at hperm
  constructor
  · exact h.received
  · refine List.Perm.trans ?_ hperm
    show e.recvQueue ++ [id] ++ (arrivals e.cq).map Prod.fst ++ pc.held
      ~ e.recvQueue ++ (arrivals e.cq).map Prod.fst ++ [id]
    rw [hheld, List.append_nil, List.append_assoc, List.append_assoc]
    exact List.perm_append_comm.append_left _

/-- A posted buffer is filled. -/
theorem PoolHeld.deliver (h : e.PoolHeld c) {id : ℕ} {recvQueue : List ℕ}
    (hqueue : e.recvQueue = id :: recvQueue) (msg : Message) :
    (e.received id recvQueue msg).PoolHeld c := by
  have hperm := h.perm
  rw [hqueue] at hperm
  constructor
  · intro m hm
    rcases List.mem_append.mp hm with hm | hm
    · exact h.received m hm
    · rw [List.mem_singleton.mp hm]
      trivial
  · refine List.Perm.trans ?_ hperm
    show recvQueue ++ (arrivals (e.cq ++ [.received id msg.seq])).map Prod.fst ++ e.recvPc.held
      ~ id :: recvQueue ++ (arrivals e.cq).map Prod.fst ++ e.recvPc.held
    rw [arrivals_concat_received, List.map_append, ← List.append_assoc]
    exact (List.perm_append_singleton id _).append_right _

/-- Every step but the early return keeps the buffers, and after the early return
one is missing. -/
theorem PoolHeld.step (h : e.PoolHeld (x.config p)) (hstep : Receives x p e a e') :
    (e.SizeMatches x p a ∧ e'.PoolHeld (x.config p)) ∨
      (¬ e.SizeMatches x p a ∧ ¬ e'.FullOnReturn (x.config p)) := by
  cases hstep with
  | deliver hqueue hfit => exact .inl ⟨trivial, h.deliver hqueue _⟩
  | own ha hown =>
      cases hown with
      | startRecv hpc =>
          refine .inl ⟨trivial, h.received, ?_⟩
          have hperm := h.perm
          rwa [hpc] at hperm
      | recvPoll hpc hcq hid => exact .inl ⟨trivial, h.recvPoll hpc hcq⟩
      | recvPollFail hpc hcq hid =>
          obtain ⟨id, seq, -, hlt, heq⟩ := h.head hcq
          exact absurd (heq ▸ hlt) hid
      | copy hpc hsize =>
          refine .inl ⟨?_, h.received, ?_⟩
          · intro offset got id hpc'
            rw [hpc] at hpc'
            cases hpc'
            exact hsize
          · have hperm := h.perm
            rwa [hpc] at hperm
      | copyFail hpc hsize =>
          refine .inr ⟨fun hmatch => hsize (hmatch _ _ _ hpc), fun hfull => ?_⟩
          exact h.not_full (by rw [hpc]; rfl) rfl rfl (hfull rfl)
      | repostNext hpc hmore => exact .inl ⟨trivial, h.repost hpc rfl⟩
      | repostLast hpc hmore => exact .inl ⟨trivial, h.repost hpc rfl⟩
      | _ => exact ha.elim

theorem PoolHeld.fullOnReturn (h : e.PoolHeld c) : e.FullOnReturn c :=
  fun hpc => h.full (by rw [hpc]; rfl)

theorem poolHeld_connected (c : PoolConfig) (mem : Mem ℕ UInt8) : (connected c mem).PoolHeld c := by
  constructor
  · intro m hm
    cases hm
  · show List.range c.bufferCount ++ [] ++ [] ~ List.range c.bufferCount
    rw [List.append_nil, List.append_nil]

end Endpoint

/-- **The receive pool is full after every return of `Recv` if and only if** no
`Recv` of the run has met a size header that it did not expect. -/
theorem receive_pool_iff (x : Calls) (p : Side) (mem : Mem ℕ UInt8) (l : List Action)
    (t : Endpoint) :
    (Lts.Run (Receives x p) (fun e _ => e.FullOnReturn (x.config p))
        (.connected (x.config p) mem) l t ∧ t.FullOnReturn (x.config p))
      ↔ Lts.Run (Receives x p) (Endpoint.SizeMatches x p) (.connected (x.config p) mem) l t := by
  have hstart := Endpoint.poolHeld_connected (x.config p) mem
  refine Lts.Run.keeps_iff (T := Receives x p) (I := Endpoint.PoolHeld (x.config p))
    (J := Endpoint.FullOnReturn (x.config p)) ?_ ?_ hstart hstart.fullOnReturn
  · intro e a e' h hstep hfull
    rcases h.step hstep with ⟨-, hheld⟩ | ⟨-, hnot⟩
    · exact hheld
    · exact absurd hfull hnot
  · intro e a e' h _ hstep
    rcases h.step hstep with ⟨hmatch, hheld⟩ | ⟨hmatch, hnot⟩
    · exact iff_of_true hheld.fullOnReturn hmatch
    · exact iff_of_false hnot hmatch

/-- A pool of one buffer, and a `Recv` of one byte that gets a message of two.  It
returns, and the endpoint can never receive again. -/
theorem one_mismatch_empties_pool :
    ∃ t : Endpoint, Lts.Run
        (Receives ⟨fun _ => ⟨16, 1, by decide, by decide⟩, fun _ _ => [], fun _ _ => 1⟩
          .connecting) (fun _ _ => True)
        (.connected ⟨16, 1, by decide, by decide⟩ fun _ _ => 0)
        [.startRecv, .deliver, .recvPoll, .copy] t ∧
      t.recvPc = .idle ∧ t.recvs = 1 ∧ t.delivered = [] ∧ t.recvQueue = [] ∧ t.cq = [] ∧
      ¬ t.PoolFull ⟨16, 1, by decide, by decide⟩ := by
  refine ⟨_, .cons (.own trivial (.startRecv rfl)) trivial <|
    .cons (@Receives.deliver _ _ _ ⟨frame [7, 7], 0⟩ _ _ rfl (by decide)) trivial <|
    .cons (.own trivial (.recvPoll rfl rfl (by decide))) trivial <|
    .cons (.own trivial (.copyFail rfl (by decide))) trivial (.nil _), rfl, rfl, rfl, rfl, rfl, ?_⟩
  intro hfull
  exact absurd hfull.length_eq (by decide)

end MiniCcl.TransportRdma
