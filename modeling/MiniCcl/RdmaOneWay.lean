/-
MiniCcl/RdmaOneWay.lean

A buffer-pool transfer in one direction: `p` calls `Send` and `p.peer` calls `Recv`,
`m` times each, and both are configured alike.

Then no step can go wrong.  At `p` there is no completion of a receive, at `p.peer`
none of a send; no message arrives at `p`; and the two sides cut every message into
the same chunks.  So every step is `Orderly`, and what `RdmaDelivery` says about
orderly steps holds of all runs.  That they end is a count of the steps that are
left: the stream has finitely many chunks, and each one goes through every stage
once.
-/
import MiniCcl.RdmaDelivery
import MiniCcl.RdmaReceive
import Mathlib.Order.MinMax
import Mathlib.Order.Monotone.Basic

namespace MiniCcl.TransportRdma

/-! ### Chunks -/

namespace Calls

variable {x : Calls} {p : Side} {j k offset : ℕ}

theorem length_sendChunk_pos (hpayload : 0 < (x.config p).maxPayload)
    (hmore : offset < (x.data p k).length) : 0 < (x.sendChunk p k offset).length := by
  rw [sendChunk, List.length_take, List.length_drop, lt_min_iff]
  refine ⟨?_, by omega⟩
  unfold chunkSize
  split
  · omega
  · exact lt_min (by omega) hpayload

theorem pos_fst_mono (x : Calls) (p : Side) : Monotone fun j => (x.pos p j).1 := by
  apply monotone_nat_of_le_succ
  intro j
  show _ ≤ (x.next p (x.pos p j)).1
  unfold next
  split
  · exact le_rfl
  · exact Nat.le_succ _

/-- A position before the `m`-th message is the number of a chunk before it. -/
theorem lt_of_pos_lt {C m : ℕ} (hC : x.pos p C = (m, 0)) (h : x.pos p j = (k, offset))
    (hk : k < m) : j < C := by
  by_contra hle
  have hmono : (x.pos p C).1 ≤ (x.pos p j).1 := pos_fst_mono x p (Nat.le_of_not_lt hle)
  rw [hC, h] at hmono
  exact absurd hk (Nat.not_lt_of_le hmono)

/-- A message has finitely many chunks. -/
theorem exists_pos_next_message (hpayload : 0 < (x.config p).maxPayload)
    (h : x.pos p j = (k, offset)) : ∃ j', x.pos p j' = (k + 1, 0) := by
  induction hn : (x.data p k).length - offset using Nat.strong_induction_on
    generalizing j offset with
  | _ n ih =>
      by_cases hmore : offset + (x.sendChunk p k offset).length < (x.data p k).length
      · have hpos := length_sendChunk_pos hpayload (Nat.lt_of_le_of_lt (Nat.le_add_right ..) hmore)
        exact ih _ (by omega) (pos_next h hmore) rfl
      · exact ⟨j + 1, pos_last h hmore⟩

theorem exists_pos (x : Calls) (p : Side) (hpayload : 0 < (x.config p).maxPayload) (m : ℕ) :
    ∃ C, x.pos p C = (m, 0) := by
  induction m with
  | zero => exact ⟨0, rfl⟩
  | succ m ih => exact exists_pos_next_message hpayload ih.choose_spec

end Calls

/-! ### The two endpoints -/

/-- `Recv` finds the size that it expects. -/
theorem RecvSide.sizeMatches {x : Calls} {p : Side} {e : Endpoint} {a : Action}
    (h : RecvSide x p e) (hbuffer : (x.config p.peer).bufferSize = (x.config p).bufferSize)
    (hsize : ∀ k, x.size p.peer k = (x.data p k).length)
    (hsmall : ∀ j < e.recvPolls.length, (x.chunk p j).length + 8 < 2 ^ 32) :
    e.SizeMatches x p.peer a := by
  cases a with
  | copy => exact fun offset got id hpc => h.header_eq hbuffer hsize hsmall hpc
  | _ => trivial

/-- A step of a `Send` call. -/
def Action.OfSend : Action → Prop
  | startSend => True
  | alloc => True
  | stage => True
  | post => True
  | sendPoll => True
  | release => True
  | _ => False

/-- The buffer that `Recv` has taken from the CQ and not read yet. -/
def RecvPc.uncopied : RecvPc → List ℕ
  | .copy _ _ id => [id]
  | _ => []

namespace Endpoint

variable {x : Calls} {p : Side} {e e' : Endpoint} {a : Action} {m : ℕ}

/-- A `Send` call goes on only after it has started. -/
theorem Step.sendPc_ne_idle (hstep : Endpoint.Step x p e a e') (ha : a.OfSend)
    (hstart : a ≠ .startSend) : e.sendPc ≠ .idle := by
  cases hstep with
  | startSend hpc => exact absurd rfl hstart
  | alloc hpc | allocFail hpc | stage hpc | stageFail hpc | post hpc | sendPoll hpc
  | releaseNext hpc | releaseLast hpc => simp [hpc]
  | _ => exact ha.elim

/-- A `Recv` call goes on only after it has started. -/
theorem Step.recvPc_ne_idle (hstep : Endpoint.Step x p e a e') (ha : a.OfRecv)
    (hstart : a ≠ .startRecv) : e.recvPc ≠ .idle := by
  cases hstep with
  | startRecv hpc => exact absurd rfl hstart
  | recvPoll hpc | recvPollFail hpc | copy hpc | copyFail hpc | repostNext hpc
  | repostLast hpc => simp [hpc]
  | _ => exact ha.elim

/-- An endpoint with at most `m` calls of `Send` and none of `Recv`. -/
structure OnlySends (m : ℕ) (e : Endpoint) : Prop where
  recvPc : e.recvPc = .idle
  cq : ∀ c ∈ e.cq, ¬ c.IsReceived
  unread : ∀ id, e.unread id = false
  started : e.sendPc ≠ .idle → e.sends < m
  sends_le : e.sends ≤ m

/-- An endpoint with at most `m` calls of `Recv` and none of `Send`. -/
structure OnlyReceives (c : PoolConfig) (m : ℕ) (e : Endpoint) : Prop where
  sendPc : e.sendPc = .idle
  sendQueue : e.sendQueue = []
  pending : e.pending = []
  pool : e.PoolHeld c
  unread : ∀ id, e.unread id = true → id ∈ (arrivals e.cq).map Prod.fst ++ e.recvPc.uncopied
  started : e.recvPc ≠ .idle → e.recvs < m
  recvs_le : e.recvs ≤ m

theorem OnlySends.not_ofRecv (h : e.OnlySends m) (hstep : Endpoint.Step x p e a e')
    (hstart : a ≠ .startRecv) : ¬ a.OfRecv :=
  fun ha => hstep.recvPc_ne_idle ha hstart h.recvPc

theorem OnlySends.sends_lt (h : e.OnlySends m) {pc : SendPc} (hpc : e.sendPc = pc)
    (hne : pc ≠ .idle) : e.sends < m := by
  apply h.started
  rwa [hpc]

theorem OnlyReceives.not_ofSend {c : PoolConfig} (h : e.OnlyReceives c m)
    (hstep : Endpoint.Step x p e a e') (hstart : a ≠ .startSend) : ¬ a.OfSend :=
  fun ha => hstep.sendPc_ne_idle ha hstart h.sendPc

theorem OnlyReceives.recvs_lt {c : PoolConfig} (h : e.OnlyReceives c m) {pc : RecvPc}
    (hpc : e.recvPc = pc) (hne : pc ≠ .idle) : e.recvs < m := by
  apply h.started
  rwa [hpc]

theorem OnlySends.orderly (h : e.OnlySends m) (hsend : SendSide x p e)
    (hsmall : (x.config p).bufferSize < 2 ^ 32) (hstep : Endpoint.Step x p e a e') :
    e.Orderly x p a := by
  have hrecv := h.not_ofRecv hstep
  cases hstep with
  | stage hpc hfit => exact ⟨fun _ id _ => h.unread id, pollsOwn_of_polls_eq_none rfl⟩
  | stageFail hpc hfit => exact ⟨fun _ id _ => h.unread id, pollsOwn_of_polls_eq_none rfl⟩
  | post hpc =>
      refine ⟨fun offset id _ => ?_, pollsOwn_of_polls_eq_none rfl⟩
      have hok := hsend.pc
      rw [hpc] at hok
      exact (length_sendChunk_le x p _ _ hok.1).trans_lt hsmall
  | sendPoll hpc hcq => exact ⟨trivial, pollsOwn_sendPoll hcq (h.cq _ (hcq ▸ List.mem_cons_self))⟩
  | recvPoll | recvPollFail | copy | copyFail => exact absurd trivial (hrecv (by simp))
  | _ => exact ⟨trivial, pollsOwn_of_polls_eq_none rfl⟩

theorem OnlyReceives.orderly {c : PoolConfig} (h : e.OnlyReceives c m)
    (hstep : Endpoint.Step x p e a e') : e.Orderly x p a := by
  have hsend := h.not_ofSend hstep
  cases hstep with
  | stage | stageFail | post | sendPoll => exact absurd trivial (hsend (by simp))
  | recvPoll hpc hcq hid =>
      exact ⟨trivial, pollsOwn_recvPoll hcq (h.pool.received _ (hcq ▸ List.mem_cons_self))⟩
  | recvPollFail hpc hcq hid =>
      exact ⟨trivial, pollsOwn_recvPoll hcq (h.pool.received _ (hcq ▸ List.mem_cons_self))⟩
  | _ => exact ⟨trivial, pollsOwn_of_polls_eq_none rfl⟩

/-- A call starts only while there are some left. -/
theorem OnlySends.step (h : e.OnlySends m) (hcall : a = .startSend → e.sends < m)
    (hrecv : a ≠ .startRecv) (hstep : Endpoint.Step x p e a e') : e'.OnlySends m := by
  have hnot := h.not_ofRecv hstep hrecv
  cases hstep with
  | startSend hpc => exact ⟨h.recvPc, h.cq, h.unread, fun _ => hcall rfl, h.sends_le⟩
  | alloc hpc hid =>
      have hlt := h.sends_lt hpc (by simp)
      exact ⟨h.recvPc, h.cq, h.unread, fun _ => hlt, h.sends_le⟩
  | allocFail hpc hid =>
      have hlt := h.sends_lt hpc (by simp)
      exact ⟨h.recvPc, h.cq, h.unread, fun hne => absurd rfl hne, hlt⟩
  | stage hpc hfit =>
      have hlt := h.sends_lt hpc (by simp)
      exact ⟨h.recvPc, h.cq, h.unread, fun _ => hlt, h.sends_le⟩
  | stageFail hpc hfit =>
      have hlt := h.sends_lt hpc (by simp)
      exact ⟨h.recvPc, h.cq, h.unread, fun hne => absurd rfl hne, hlt⟩
  | post hpc =>
      have hlt := h.sends_lt hpc (by simp)
      exact ⟨h.recvPc, h.cq, h.unread, fun _ => hlt, h.sends_le⟩
  | sendPoll hpc hcq =>
      have hlt := h.sends_lt hpc (by simp)
      refine ⟨h.recvPc, fun c hc => h.cq c ?_, h.unread, fun _ => hlt, h.sends_le⟩
      rw [hcq]
      exact List.mem_cons_of_mem _ hc
  | releaseNext hpc hmore =>
      have hlt := h.sends_lt hpc (by simp)
      exact ⟨h.recvPc, h.cq, h.unread, fun _ => hlt, h.sends_le⟩
  | releaseLast hpc hmore =>
      have hlt := h.sends_lt hpc (by simp)
      exact ⟨h.recvPc, h.cq, h.unread, fun hne => absurd rfl hne, hlt⟩
  | complete hpending =>
      refine ⟨h.recvPc, fun c hc => ?_, h.unread, h.started, h.sends_le⟩
      rcases List.mem_append.mp hc with hc | hc
      · exact h.cq c hc
      · rw [List.mem_singleton.mp hc]
        exact id
  | _ => exact absurd trivial hnot

/-- Copying clears the mark of the buffer in hand. -/
theorem OnlyReceives.unread_copied {c : PoolConfig} (h : e.OnlyReceives c m) {offset id i : ℕ}
    {got : List UInt8} (hpc : e.recvPc = .copy offset got id)
    (hi : Function.update e.unread id false i = true) : i ∈ (arrivals e.cq).map Prod.fst := by
  rcases eq_or_ne i id with rfl | hne
  · rw [Function.update_self] at hi
    cases hi
  · rw [Function.update_of_ne hne] at hi
    have hmem := h.unread i hi
    rw [hpc, List.mem_append] at hmem
    exact hmem.resolve_right fun hmem => hne (List.mem_singleton.mp hmem)

theorem OnlyReceives.step (h : e.OnlyReceives (x.config p) m)
    (hcall : a = .startRecv → e.recvs < m) (hsend : a ≠ .startSend)
    (hmatch : e.SizeMatches x p a) (hstep : Endpoint.Step x p e a e') :
    e'.OnlyReceives (x.config p) m := by
  have hpool : a.OfRecv → e.SizeMatches x p a → e'.PoolHeld (x.config p) := by
    intro ha hmatch
    rcases h.pool.step (.own ha hstep) with ⟨-, hheld⟩ | ⟨hnot, -⟩
    · exact hheld
    · exact absurd hmatch hnot
  have hnot := h.not_ofSend hstep hsend
  cases hstep with
  | startRecv hpc =>
      have hunread := h.unread
      rw [hpc] at hunread
      exact ⟨h.sendPc, h.sendQueue, h.pending, hpool trivial trivial, hunread,
        fun _ => hcall rfl, h.recvs_le⟩
  | recvPoll hpc hcq hid =>
      have hlt := h.recvs_lt hpc (by simp)
      refine ⟨h.sendPc, h.sendQueue, h.pending, hpool trivial trivial, fun i hi => ?_,
        fun _ => hlt, h.recvs_le⟩
      -- the buffer goes from the CQ into the hands of `Recv`
      obtain ⟨id, seq, rfl, -, hid⟩ := h.pool.head hcq
      have hmem := h.unread i hi
      rw [hpc, hcq, arrivals_cons_received] at hmem
      rw [hid]
      simp only [RecvPc.uncopied, List.map_cons, List.append_nil, List.mem_cons, List.mem_append,
        List.not_mem_nil, or_false] at hmem ⊢
      exact hmem.symm
  | recvPollFail hpc hcq hid =>
      obtain ⟨id, seq, -, hlt, heq⟩ := h.pool.head hcq
      exact absurd (heq ▸ hlt) hid
  | copy hpc hsize =>
      have hlt := h.recvs_lt hpc (by simp)
      exact ⟨h.sendPc, h.sendQueue, h.pending, hpool trivial hmatch,
        fun i hi => List.mem_append_left _ (h.unread_copied hpc hi), fun _ => hlt, h.recvs_le⟩
  | copyFail hpc hsize => exact absurd (hmatch _ _ _ hpc) hsize
  | repostNext hpc hmore =>
      have hlt := h.recvs_lt hpc (by simp)
      have hunread := h.unread
      rw [hpc] at hunread
      exact ⟨h.sendPc, h.sendQueue, h.pending, hpool trivial trivial, hunread,
        fun _ => hlt, h.recvs_le⟩
  | repostLast hpc hmore =>
      have hlt := h.recvs_lt hpc (by simp)
      have hunread := h.unread
      rw [hpc] at hunread
      exact ⟨h.sendPc, h.sendQueue, h.pending, hpool trivial trivial, hunread,
        fun hne => absurd rfl hne, hlt⟩
  | complete hpending => exact nomatch h.pending.symm.trans hpending
  | _ => exact absurd trivial hnot

/-- A message arrives. -/
theorem OnlyReceives.received {c : PoolConfig} (h : e.OnlyReceives c m) {id : ℕ}
    {recvQueue : List ℕ} (hqueue : e.recvQueue = id :: recvQueue) (msg : Message) :
    (e.received id recvQueue msg).OnlyReceives c m := by
  refine ⟨h.sendPc, h.sendQueue, h.pending, h.pool.deliver hqueue msg, fun i hi => ?_,
    h.started, h.recvs_le⟩
  show i ∈ (arrivals (e.cq ++ [.received id msg.seq])).map Prod.fst ++ e.recvPc.uncopied
  rw [arrivals_concat_received, List.map_append, List.mem_append, List.mem_append]
  rcases eq_or_ne i id with rfl | hne
  · exact .inl (.inr (List.mem_singleton_self i))
  · have hi : Function.update e.unread id true i = true := hi
    rw [Function.update_of_ne hne] at hi
    rcases List.mem_append.mp (h.unread i hi) with hmem | hmem
    · exact .inl (.inl hmem)
    · exact .inr hmem

end Endpoint

/-! ### Runs -/

namespace State

/-- `p` starts only `Send` calls, `p.peer` only `Recv` calls, and each at most `m`. -/
def OneWayCalls (p : Side) (m : ℕ) (s : State) : Side × Action → Prop
  | (q, .startSend) => q = p ∧ (s.endpoint q).sends < m
  | (q, .startRecv) => q = p.peer ∧ (s.endpoint q).recvs < m
  | _ => True

structure OneWay (x : Calls) (p : Side) (m : ℕ) (s : State) : Prop where
  flow : Flow x p (s.endpoint p) (s.wire p) (s.endpoint p.peer)
  sender : (s.endpoint p).OnlySends m
  receiver : (s.endpoint p.peer).OnlyReceives (x.config p.peer) m
  quiet : s.wire p.peer = []

variable {x : Calls} {p : Side} {m : ℕ} {s t : State} {a : Side × Action}

theorem oneWay_connected (x : Calls) (p : Side) (m : ℕ) (mem : Side → Mem ℕ UInt8) :
    (State.connected x mem).OneWay x p m where
  flow := flows_connected x mem p
  sender := ⟨rfl, fun _ hc => absurd hc List.not_mem_nil, fun _ => rfl,
    fun hne => absurd rfl hne, Nat.zero_le m⟩
  receiver := ⟨rfl, rfl, rfl, Endpoint.poolHeld_connected _ _,
    fun _ hid => absurd hid Bool.false_ne_true, fun hne => absurd rfl hne, Nat.zero_le m⟩
  quiet := rfl

section Orderly

variable (hconfig : x.config p.peer = x.config p)
  (hsize : ∀ k, x.size p.peer k = (x.data p k).length)
  (hsmall : (x.config p).bufferSize < 2 ^ 32)
include hconfig hsize hsmall

omit hconfig hsize in
/-- In one direction nothing goes wrong. -/
theorem OneWay.orderly (h : s.OneWay x p m) (hstep : Step x s a t) : s.Orderly x a := by
  cases hstep with
  | @own _ q a e hstep =>
      rcases Side.eq_or_eq_peer p q with rfl | rfl
      · exact h.sender.orderly h.flow.send hsmall hstep
      · exact h.receiver.orderly hstep
  | transmit hqueue => exact ⟨trivial, Endpoint.pollsOwn_of_polls_eq_none rfl⟩
  | @deliver _ q msg wire id recvQueue hwire hqueue hfit =>
      rcases Side.eq_or_eq_peer p q with rfl | rfl
      · exact nomatch h.quiet.symm.trans hwire
      · -- the receiving endpoint has nothing to send
        refine ⟨?_, Endpoint.pollsOwn_of_polls_eq_none rfl⟩
        rintro i - (⟨offset, hpc⟩ | ⟨w, hw, -⟩)
        · exact nomatch h.receiver.sendPc.symm.trans hpc
        · have hw : w ∈ (s.endpoint p.peer).sendQueue := hw
          rw [h.receiver.sendQueue] at hw
          cases hw

theorem OneWay.step (h : s.OneWay x p m) (hcall : s.OneWayCalls p m a)
    (hstep : Step x s a t) : t.OneWay x p m := by
  have hbuffer := congrArg PoolConfig.bufferSize hconfig
  have hflow := flow_step hbuffer hsize h.flow (h.orderly hsmall hstep) hstep
  cases hstep with
  | @own _ q a e hstep =>
      rcases Side.eq_or_eq_peer p q with rfl | rfl
      · refine ⟨hflow, ?_, ?_, h.quiet⟩
        · show (Function.update s.endpoint q e q).OnlySends m
          rw [Function.update_self]
          refine h.sender.step ?_ ?_ hstep
          · rintro rfl
            exact hcall.2
          · rintro rfl
            exact q.peer_ne hcall.1.symm
        · show (Function.update s.endpoint q e q.peer).OnlyReceives _ m
          rw [Function.update_of_ne q.peer_ne]
          exact h.receiver
      · refine ⟨hflow, ?_, ?_, h.quiet⟩
        · show (Function.update s.endpoint p.peer e p).OnlySends m
          rw [Function.update_of_ne p.peer_ne.symm]
          exact h.sender
        · show (Function.update s.endpoint p.peer e p.peer).OnlyReceives _ m
          rw [Function.update_self]
          refine h.receiver.step ?_ ?_ (h.flow.recv.sizeMatches hbuffer hsize h.flow.small) hstep
          · rintro rfl
            exact hcall.2
          · rintro rfl
            exact p.peer_ne hcall.1
  | @transmit _ q w sendQueue hqueue =>
      rcases Side.eq_or_eq_peer p q with rfl | rfl
      · refine ⟨hflow, ?_, ?_, ?_⟩
        · show (Function.update s.endpoint q _ q).OnlySends m
          rw [Function.update_self]
          exact ⟨h.sender.recvPc, h.sender.cq, h.sender.unread, h.sender.started,
            h.sender.sends_le⟩
        · show (Function.update s.endpoint q _ q.peer).OnlyReceives _ m
          rw [Function.update_of_ne q.peer_ne]
          exact h.receiver
        · show Function.update s.wire q _ q.peer = []
          rw [Function.update_of_ne q.peer_ne]
          exact h.quiet
      · exact nomatch h.receiver.sendQueue.symm.trans hqueue
  | @deliver _ q msg wire id recvQueue hwire hqueue hfit =>
      rcases Side.eq_or_eq_peer p q with rfl | rfl
      · exact nomatch h.quiet.symm.trans hwire
      · refine ⟨hflow, ?_, ?_, ?_⟩
        · show (Function.update s.endpoint p.peer _ p).OnlySends m
          rw [Function.update_of_ne p.peer_ne.symm]
          exact h.sender
        · show (Function.update s.endpoint p.peer _ p.peer).OnlyReceives _ m
          rw [Function.update_self]
          exact h.receiver.received hqueue msg
        · show Function.update s.wire p.peer.peer _ p.peer = []
          rw [Side.peer_peer, Function.update_of_ne p.peer_ne]
          exact h.quiet

end Orderly

/-! ### No deadlock -/

section Progress

variable (hown : ∀ a u, Step x s a u → ¬ s.OneWayCalls p m a)
include hown

/-- An endpoint `p` that cannot go on has made all its `Send` calls. -/
theorem OneWay.sends_of_stuck (h : s.OneWay x p m) (hlive : (x.config p).Live) :
    (s.endpoint p).sendPc = .idle ∧ (s.endpoint p).sends = m := by
  have hstuck : ∀ {a e}, Endpoint.Step x p (s.endpoint p) a e → ¬ s.OneWayCalls p m (p, a) :=
    fun hstep => hown _ _ (.own hstep)
  cases hpc : (s.endpoint p).sendPc with
  | idle =>
      refine ⟨rfl, ?_⟩
      by_contra hne
      exact hstuck (.startSend hpc) ⟨rfl, lt_of_le_of_ne h.sender.sends_le hne⟩
  | alloc offset =>
      cases hid : (s.endpoint p).allocateBuffer (x.config p) with
      | none =>
          exact absurd hlive (not_live_of_allocateBuffer h.flow.one (by rw [hpc]; rfl) hid)
      | some id => exact absurd trivial (hstuck (.alloc hpc hid))
  | stage offset id =>
      have hfit := length_sendChunk_le x p (s.endpoint p).sends offset hlive
      exact absurd trivial (hstuck (.stage hpc hfit))
  | post offset id => exact absurd trivial (hstuck (.post hpc))
  | poll offset id seq =>
      -- the send is posted, pending or completed
      have hawaited := h.flow.send.awaited
      rw [hpc] at hawaited
      cases hqueue : (s.endpoint p).sendQueue with
      | cons w sendQueue => exact absurd trivial (hown _ _ (.transmit hqueue))
      | nil =>
          cases hpending : (s.endpoint p).pending with
          | cons seq pending => exact absurd trivial (hstuck (.complete hpending))
          | nil =>
              cases hcq : (s.endpoint p).cq with
              | cons c cq => exact absurd trivial (hstuck (.sendPoll hpc hcq))
              | nil =>
                  rw [hqueue, hpending, hcq] at hawaited
                  cases hawaited
  | release offset id =>
      by_cases hmore : offset + (x.sendChunk p (s.endpoint p).sends offset).length
          < (x.data p (s.endpoint p).sends).length
      · exact absurd trivial (hstuck (.releaseNext hpc hmore))
      · exact absurd trivial (hstuck (.releaseLast hpc hmore))

omit hown in
/-- All buffers are posted when `Recv` polls an empty CQ. -/
theorem OneWay.recvQueue_ne_nil (h : s.OneWay x p m) (hlive : (x.config p).Live)
    (hconfig : x.config p.peer = x.config p) {offset : ℕ} {got : List UInt8}
    (hpc : (s.endpoint p.peer).recvPc = .poll offset got) (hcq : (s.endpoint p.peer).cq = []) :
    (s.endpoint p.peer).recvQueue ≠ [] := by
  intro hnil
  have hlen := h.receiver.pool.perm.length_eq
  rw [hcq, hpc, hnil, List.length_range, hconfig] at hlen
  exact absurd hlive.1 (Nat.not_lt_of_le (Nat.le_of_eq hlen.symm))

omit hown in
/-- After the last `Send` the chunk that `Recv` waits for is on the wire. -/
theorem OneWay.wire_ne_nil (h : s.OneWay x p m) (hlive : (x.config p).Live)
    (hpcS : (s.endpoint p).sendPc = .idle) (hsends : (s.endpoint p).sends = m)
    {offset : ℕ} {got : List UInt8} (hpc : (s.endpoint p.peer).recvPc = .poll offset got)
    (hcq : (s.endpoint p.peer).cq = []) : s.wire p ≠ [] := by
  intro hwire
  have hrecv := h.flow.recv.pc
  rw [hpc] at hrecv
  have hsend := h.flow.send.pc
  rw [hpcS] at hsend
  have hpos := hsend hlive
  rw [hsends] at hpos
  have hlt := Calls.lt_of_pos_lt hpos hrecv.1 (h.receiver.recvs_lt hpc (by simp))
  have hqueue := h.flow.send.sendQueue_eq_nil (by rw [hpcS]; rfl)
  have harrived : (s.endpoint p.peer).arrived = (s.endpoint p.peer).recvPolls.length := by
    rw [Endpoint.arrived, hcq]
    rfl
  have hseqs := h.flow.link.seqs
  rw [hqueue, harrived, hwire, List.map_nil, List.map_nil, List.append_nil, eq_comm,
    List.range'_eq_nil_iff] at hseqs
  omega

/-- After the last `Send` an endpoint `p.peer` that cannot go on has made all its
`Recv` calls. -/
theorem OneWay.recvs_of_stuck (h : s.OneWay x p m) (hlive : (x.config p).Live)
    (hconfig : x.config p.peer = x.config p) (hsmall : (x.config p).bufferSize < 2 ^ 32)
    (hpcS : (s.endpoint p).sendPc = .idle) (hsends : (s.endpoint p).sends = m) :
    (s.endpoint p.peer).recvs = m := by
  have hstuck : ∀ {a e}, Endpoint.Step x p.peer (s.endpoint p.peer) a e →
      ¬ s.OneWayCalls p m (p.peer, a) := fun hstep => hown _ _ (.own hstep)
  cases hpc : (s.endpoint p.peer).recvPc with
  | idle =>
      by_contra hne
      exact hstuck (.startRecv hpc) ⟨rfl, lt_of_le_of_ne h.receiver.recvs_le hne⟩
  | copy offset got id =>
      by_cases hheader : (s.endpoint p.peer).header id
          = x.recvSize p.peer (s.endpoint p.peer).recvs offset
      · exact absurd trivial (hstuck (.copy hpc hheader))
      · exact absurd trivial (hstuck (.copyFail hpc hheader))
  | repost offset got id =>
      by_cases hmore : offset + x.recvSize p.peer (s.endpoint p.peer).recvs offset
          < x.size p.peer (s.endpoint p.peer).recvs
      · exact absurd trivial (hstuck (.repostNext hpc hmore))
      · exact absurd trivial (hstuck (.repostLast hpc hmore))
  | poll offset got =>
      cases hcq : (s.endpoint p.peer).cq with
      | cons c cq =>
          by_cases hid : c.bufferId < (x.config p.peer).bufferCount
          · exact absurd trivial (hstuck (.recvPoll hpc hcq hid))
          · exact absurd trivial (hstuck (.recvPollFail hpc hcq hid))
      | nil =>
          -- the next message can be delivered
          obtain ⟨msg, wire, hwire⟩ :=
            List.exists_cons_of_ne_nil (h.wire_ne_nil hlive hpcS hsends hpc hcq)
          obtain ⟨id, recvQueue, hrq⟩ :=
            List.exists_cons_of_ne_nil (h.recvQueue_ne_nil hlive hconfig hpc hcq)
          refine absurd trivial (hown (p.peer, .deliver) _
            (@Step.deliver _ _ _ msg wire _ _ ?_ hrq ?_))
          · rw [Side.peer_peer]
            exact hwire
          · rw [hconfig, Nat.mod_eq_of_lt hsmall, h.flow.link.bytes msg
              (by rw [hwire]; exact List.mem_cons_self), length_frame, Nat.add_comm]
            exact length_sendChunk_le x p _ _ hlive

end Progress

end State

/-! ### Steps left -/

/-- The stages of a chunk, counted down.  `post` goes up again, but there is one chunk
less to send. -/
def SendPc.rank : SendPc → ℕ
  | .idle => 4
  | .alloc _ => 3
  | .stage _ _ => 2
  | .post _ _ => 1
  | .poll _ _ _ => 6
  | .release _ _ => 5

/-- The same for `Recv`, where polling goes up. -/
def RecvPc.rank : RecvPc → ℕ
  | .idle => 6
  | .poll _ _ => 5
  | .copy _ _ _ => 8
  | .repost _ _ _ => 7

/-- What is left to send of `C` chunks. -/
def Endpoint.sendLeft (C : ℕ) (e : Endpoint) : ℕ :=
  20 * (C - e.posted) + e.sendPc.rank + 3 * e.sendQueue.length + e.pending.length

/-- What is left to receive of `C` chunks. -/
def Endpoint.recvLeft (C : ℕ) (e : Endpoint) : ℕ :=
  10 * (C - e.recvPolls.length) + e.recvPc.rank

def State.left (C : ℕ) (p : Side) (s : State) : ℕ :=
  (s.endpoint p).sendLeft C + (s.wire p).length + (s.endpoint p.peer).recvLeft C

section Left

variable {x : Calls} {p : Side} {e e' : Endpoint} {a : Action} {m C : ℕ}

theorem Endpoint.sendLeft_lt_of_rank (hposted : e'.posted = e.posted)
    (hqueue : e'.sendQueue = e.sendQueue) (hpending : e'.pending = e.pending)
    (hrank : e'.sendPc.rank < e.sendPc.rank) : e'.sendLeft C < e.sendLeft C := by
  rw [sendLeft, sendLeft, hposted, hqueue, hpending]
  omega

theorem Endpoint.sendLeft_lt (h : e.OnlySends m) (hone : e.OneSend) (hsend : SendSide x p e)
    (hlive : (x.config p).Live) (hC : x.pos p C = (m, 0)) (hstep : Endpoint.Step x p e a e')
    (hrecv : a ≠ .startRecv) : e'.sendLeft C < e.sendLeft C := by
  have hnot := h.not_ofRecv hstep hrecv
  cases hstep with
  | startSend hpc => exact sendLeft_lt_of_rank rfl rfl rfl (by simp [hpc, SendPc.rank])
  | alloc hpc hid => exact sendLeft_lt_of_rank rfl rfl rfl (by simp [hpc, SendPc.rank])
  | allocFail hpc hid =>
      exact absurd hlive (not_live_of_allocateBuffer hone (by rw [hpc]; rfl) hid)
  | stage hpc hfit => exact sendLeft_lt_of_rank rfl rfl rfl (by simp [hpc, SendPc.rank])
  | stageFail hpc hfit => exact absurd (length_sendChunk_le x p _ _ hlive) hfit
  | @post offset id hpc =>
      have hok := hsend.pc
      rw [hpc] at hok
      have hlt : e.posted < C :=
        Calls.lt_of_pos_lt hC hok.2.1 (h.sends_lt hpc (by simp))
      simp only [sendLeft, hpc, SendPc.rank, List.length_append, List.length_singleton]
      omega
  | sendPoll hpc hcq => exact sendLeft_lt_of_rank rfl rfl rfl (by simp [hpc, SendPc.rank])
  | releaseNext hpc hmore => exact sendLeft_lt_of_rank rfl rfl rfl (by simp [hpc, SendPc.rank])
  | releaseLast hpc hmore => exact sendLeft_lt_of_rank rfl rfl rfl (by simp [hpc, SendPc.rank])
  | complete hpending =>
      simp only [sendLeft, hpending, List.length_cons]
      omega
  | _ => exact absurd trivial hnot

theorem Endpoint.recvLeft_lt_of_rank (hpolls : e'.recvPolls = e.recvPolls)
    (hrank : e'.recvPc.rank < e.recvPc.rank) : e'.recvLeft C < e.recvLeft C := by
  rw [recvLeft, recvLeft, hpolls]
  omega

theorem Endpoint.recvLeft_lt {c : PoolConfig} (h : e.OnlyReceives c m) (hrecv : RecvSide x p e)
    (hC : x.pos p C = (m, 0)) (hstep : Endpoint.Step x p.peer e a e') (hsend : a ≠ .startSend) :
    e'.recvLeft C < e.recvLeft C := by
  have hlt : ∀ offset got, e.recvPc = .poll offset got → e.recvPolls.length < C := by
    intro offset got hpc
    have hok := hrecv.pc
    rw [hpc] at hok
    exact Calls.lt_of_pos_lt hC hok.1 (h.recvs_lt hpc (by simp))
  have hnot := h.not_ofSend hstep hsend
  cases hstep with
  | startRecv hpc => exact recvLeft_lt_of_rank rfl (by simp [hpc, RecvPc.rank])
  | recvPoll hpc hcq hid =>
      have hpolls := hlt _ _ hpc
      simp only [recvLeft, hpc, RecvPc.rank, List.length_append, List.length_singleton]
      omega
  | recvPollFail hpc hcq hid =>
      have hpolls := hlt _ _ hpc
      simp only [recvLeft, hpc, RecvPc.rank, List.length_append, List.length_singleton]
      omega
  | copy hpc hsize => exact recvLeft_lt_of_rank rfl (by simp [hpc, RecvPc.rank])
  | copyFail hpc hsize => exact recvLeft_lt_of_rank rfl (by simp [hpc, RecvPc.rank])
  | repostNext hpc hmore => exact recvLeft_lt_of_rank rfl (by simp [hpc, RecvPc.rank])
  | repostLast hpc hmore => exact recvLeft_lt_of_rank rfl (by simp [hpc, RecvPc.rank])
  | complete hpending => exact nomatch h.pending.symm.trans hpending
  | _ => exact absurd trivial hnot

end Left

/-- Every step of a transfer in one direction leaves less to do. -/
theorem State.OneWay.left_lt {x : Calls} {p : Side} {m C : ℕ} {s t : State} {a : Side × Action}
    (h : s.OneWay x p m) (hlive : (x.config p).Live) (hC : x.pos p C = (m, 0))
    (hcall : s.OneWayCalls p m a) (hstep : Step x s a t) : t.left C p < s.left C p := by
  cases hstep with
  | @own _ q a e hstep =>
      rcases Side.eq_or_eq_peer p q with rfl | rfl
      · have hlt := Endpoint.sendLeft_lt h.sender h.flow.one h.flow.send hlive hC hstep
          (by rintro rfl; exact q.peer_ne hcall.1.symm)
        simp only [left, Function.update_self, Function.update_of_ne q.peer_ne]
        omega
      · have hlt := Endpoint.recvLeft_lt h.receiver h.flow.recv hC hstep
          (by rintro rfl; exact p.peer_ne hcall.1)
        simp only [left, Function.update_self, Function.update_of_ne p.peer_ne.symm]
        omega
  | @transmit _ q w sendQueue hqueue =>
      rcases Side.eq_or_eq_peer p q with rfl | rfl
      · simp only [left, Function.update_self, Function.update_of_ne q.peer_ne,
          Endpoint.sendLeft, Endpoint.transmitted, hqueue, List.length_append, List.length_cons,
          List.length_nil]
        omega
      · exact nomatch h.receiver.sendQueue.symm.trans hqueue
  | @deliver _ q msg wire id recvQueue hwire hqueue hfit =>
      rcases Side.eq_or_eq_peer p q with rfl | rfl
      · exact nomatch h.quiet.symm.trans hwire
      · rw [Side.peer_peer] at hwire
        simp only [left, Side.peer_peer, Function.update_self,
          Function.update_of_ne p.peer_ne.symm, hwire, List.length_cons, Endpoint.recvLeft,
          Endpoint.received]
        omega

/-- Posted buffers hold nothing that `Recv` still has to copy out. -/
theorem Endpoint.OnlyReceives.unread_recvQueue {c : PoolConfig} {m : ℕ} {e : Endpoint}
    (h : e.OnlyReceives c m) {id : ℕ} (hid : id ∈ e.recvQueue) : e.unread id = false := by
  have hnodup : (e.recvQueue ++ ((arrivals e.cq).map Prod.fst ++ e.recvPc.held)).Nodup := by
    rw [← List.append_assoc]
    exact h.pool.perm.nodup_iff.mpr List.nodup_range
  rw [← Bool.not_eq_true]
  intro hunread
  have hmem : id ∈ (arrivals e.cq).map Prod.fst ++ e.recvPc.held := by
    rcases List.mem_append.mp (h.unread id hunread) with hmem | hmem
    · exact List.mem_append_left _ hmem
    · apply List.mem_append_right
      cases hpc : e.recvPc with
      | copy offset got id' =>
          rw [hpc] at hmem
          exact hmem
      | _ =>
          rw [hpc] at hmem
          cases hmem
  exact (List.nodup_append.mp hnodup).2.2 id hid id hmem rfl

/-! ### The stream -/

/-- Both endpoints of a transfer from `p` are configured alike, and `Recv` is called
with the sizes of the messages. -/
structure Calls.Stream (x : Calls) (p : Side) : Prop where
  config : x.config p.peer = x.config p
  count : 0 < (x.config p).bufferCount
  buffer : 8 < (x.config p).bufferSize
  small : (x.config p).bufferSize < 2 ^ 32
  size : ∀ k, x.size p.peer k = (x.data p k).length

section Stream

variable {x : Calls} {p : Side} (hx : x.Stream p) (m : ℕ) {mem : Side → Mem ℕ UInt8}
include hx

theorem Calls.Stream.live : (x.config p).Live := ⟨hx.count, hx.buffer.le⟩

/-- **Step lemma.**  A step keeps the transfer in order and leaves less to do. -/
theorem Calls.Stream.exists_step : ∃ C, ∀ {s : State} {a : Side × Action} {t : State},
    s.OneWay x p m → Step x s a t → s.OneWayCalls p m a →
      t.OneWay x p m ∧ t.left C p < s.left C p := by
  have hpayload : 0 < (x.config p).maxPayload := by
    rw [PoolConfig.maxPayload, sizeSub, if_pos hx.live.2]
    exact Nat.sub_pos_of_lt hx.buffer
  obtain ⟨C, hC⟩ := x.exists_pos p hpayload m
  refine ⟨C, fun h hstep hcall => ⟨?_, h.left_lt hx.live hC hcall hstep⟩⟩
  exact h.step hx.config hx.size hx.small hcall hstep

variable {m}

theorem Calls.Stream.oneWay_of_run {l : List (Side × Action)} {t : State}
    (hrun : Lts.Run (Step x) (State.OneWayCalls p m) (.connected x mem) l t) :
    t.OneWay x p m := by
  obtain ⟨C, hstep⟩ := hx.exists_step m
  exact (Lts.Run.preserve (T := Step x) (P := State.OneWayCalls p m) (J := State.OneWay x p m)
    (Q := fun _ _ => True) (fun hs hst hcall => ⟨(hstep hs hst hcall).1, trivial⟩)
    (State.oneWay_connected x p m mem) hrun).2

/-- A state that cannot go on is one in which all calls have returned. -/
theorem Calls.Stream.returned_of_stuck {t : State} (h : t.OneWay x p m)
    (hstuck : ∀ a u, Step x t a u → ¬ t.OneWayCalls p m a) :
    (t.endpoint p).sends = m ∧ (t.endpoint p.peer).recvs = m := by
  obtain ⟨hpc, hsends⟩ := h.sends_of_stuck hstuck hx.live
  exact ⟨hsends, h.recvs_of_stuck hstuck hx.live hx.config hx.small hpc hsends⟩

end Stream

/-- **A transfer in one direction is a faithful stream of messages.**  In every state
of every run, each `Recv` that has returned has delivered the message of the `Send`
of the same number, the buffers with messages that are not copied out hold them, and
none of these buffers is posted.  A run that cannot go on has made all calls, and
runs are of bounded length. -/
theorem one_way_stream (x : Calls) (p : Side) (m : ℕ) (mem : Side → Mem ℕ UInt8)
    (hconfig : x.config p.peer = x.config p) (hcount : 0 < (x.config p).bufferCount)
    (hbuffer : 8 < (x.config p).bufferSize) (hsmall : (x.config p).bufferSize < 2 ^ 32)
    (hsize : ∀ k, x.size p.peer k = (x.data p k).length) :
    (∀ l t, Lts.Run (Step x) (State.OneWayCalls p m) (.connected x mem) l t →
      (t.endpoint p.peer).delivered = (List.range (t.endpoint p.peer).recvs).map (x.data p) ∧
      (∀ a ∈ arrivals (t.endpoint p.peer).cq,
        Holds (t.endpoint p.peer).mem a.1 (x.chunk p a.2)) ∧
      (∀ id ∈ (t.endpoint p.peer).recvQueue, (t.endpoint p.peer).unread id = false) ∧
      ((∀ a u, Step x t a u → ¬ t.OneWayCalls p m a) →
        (t.endpoint p).sends = m ∧ (t.endpoint p.peer).recvs = m)) ∧
    ∃ bound, ∀ l t, Lts.Run (Step x) (State.OneWayCalls p m) (.connected x mem) l t →
      l.length ≤ bound := by
  have hx : x.Stream p := ⟨hconfig, hcount, hbuffer, hsmall, hsize⟩
  constructor
  · intro l t hrun
    have h := hx.oneWay_of_run hrun
    exact ⟨h.flow.recv.delivered, fun a ha => (h.flow.recv.arrived a ha).1,
      fun id => h.receiver.unread_recvQueue, hx.returned_of_stuck h⟩
  · obtain ⟨C, hstep⟩ := hx.exists_step m
    refine ⟨(State.connected x mem).left C p, fun l t hrun => ?_⟩
    exact (Nat.le_add_right _ _).trans (Lts.Run.length_add_le (T := Step x)
      (P := State.OneWayCalls p m) (J := State.OneWay x p m) hstep
      (State.oneWay_connected x p m mem) hrun)

/-- One buffer with room for two bytes of data, and messages of three bytes. -/
def threeBytes : Calls where
  config _ := ⟨10, 1, by decide, by decide⟩
  data _ _ := [1, 2, 3]
  size _ _ := 3

/-- The two chunks of one message. -/
def threeBytesRun : List (Side × Action) :=
  [(.connecting, .startSend), (.connecting, .alloc), (.connecting, .stage),
    (.connecting, .post), (.connecting, .transmit), (.connecting, .complete),
    (.connecting, .sendPoll), (.connecting, .release), (.connecting, .alloc),
    (.connecting, .stage), (.connecting, .post), (.connecting, .transmit),
    (.accepting, .startRecv), (.accepting, .deliver), (.accepting, .recvPoll),
    (.accepting, .copy), (.accepting, .repost), (.accepting, .deliver),
    (.accepting, .recvPoll), (.accepting, .copy), (.accepting, .repost)]

/-- In `threeBytesRun` the second chunk waits until the buffer is posted again. -/
theorem one_way_stream_threeBytes :
    ∃ t : State, Lts.Run (Step threeBytes) (State.OneWayCalls .connecting 1)
        (.connected threeBytes fun _ _ _ => 0) threeBytesRun t ∧
      (t.endpoint .accepting).delivered = [[1, 2, 3]] ∧
      ∀ id ∈ (t.endpoint .accepting).recvQueue, (t.endpoint .accepting).unread id = false := by
  have hrun : ∃ t : State, Lts.Run (Step threeBytes) (State.OneWayCalls .connecting 1)
      (.connected threeBytes fun _ _ _ => 0) threeBytesRun t ∧
      (t.endpoint .accepting).recvs = 1 := by
    refine ⟨_, .cons (.own (.startSend rfl)) ⟨rfl, by decide⟩ <|
      .cons (.own (.alloc rfl rfl)) trivial <|
      .cons (.own (.stage rfl (by decide))) trivial <|
      .cons (.own (.post rfl)) trivial <|
      .cons (.transmit rfl) trivial <|
      .cons (.own (.complete rfl)) trivial <|
      .cons (.own (.sendPoll rfl rfl)) trivial <|
      .cons (.own (.releaseNext rfl (by decide))) trivial <|
      .cons (.own (.alloc rfl rfl)) trivial <|
      .cons (.own (.stage rfl (by decide))) trivial <|
      .cons (.own (.post rfl)) trivial <|
      .cons (.transmit rfl) trivial <|
      .cons (.own (.startRecv rfl)) ⟨rfl, by decide⟩ <|
      .cons (.deliver rfl rfl (by decide)) trivial <|
      .cons (.own (.recvPoll rfl rfl (by decide))) trivial <|
      .cons (.own (.copy rfl (by decide))) trivial <|
      .cons (.own (.repostNext rfl (by decide))) trivial <|
      .cons (.deliver rfl rfl (by decide)) trivial <|
      .cons (.own (.recvPoll rfl rfl (by decide))) trivial <|
      .cons (.own (.copy rfl (by decide))) trivial <|
      .cons (.own (.repostLast rfl (by decide))) trivial (.nil _), rfl⟩
  obtain ⟨t, hrun, hrecvs⟩ := hrun
  obtain ⟨hdelivered, -, hunread, -⟩ := (one_way_stream threeBytes .connecting 1
    (fun _ _ _ => 0) rfl (by decide) (by decide) (by decide) fun _ => rfl).1 _ t hrun
  refine ⟨t, hrun, ?_, hunread⟩
  have hrecvs : (t.endpoint Side.connecting.peer).recvs = 1 := hrecvs
  rw [hrecvs] at hdelivered
  exact hdelivered

end MiniCcl.TransportRdma
