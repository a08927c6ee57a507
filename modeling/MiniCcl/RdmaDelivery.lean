/-
MiniCcl/RdmaDelivery.lean

Two connected endpoints that exchange any number of messages in both directions.

A `Flow` is one direction: the sending half of one endpoint, the wire, and the
receiving half of the other one.  A step of either endpoint or of the connection
keeps both flows when it is `Orderly`.

Which completion a poll gets depends on the order of steps only: the completion queue
is first in, first out, so the polls of an endpoint take the entries in the order in
which they came.  If the calls poll in that order (`PolledInOrder`), every poll returns
what its caller waits for and the `k`-th `Recv` delivers the data of the `k`-th `Send`,
and otherwise some poll takes the completion of the other call: `delivers_iff_polledInOrder`.
-/
import MiniCcl.RdmaEndpoints

namespace MiniCcl.TransportRdma

variable {x : Calls} {p : Side} {e e' r r' : Endpoint} {wire : List Message} {a : Action}

/-! ### The link -/

/-- A step that posts nothing. -/
theorem Link.congr (h : Link x p e wire r) (hqueue : e'.sendQueue = e.sendQueue)
    (hposted : e'.posted = e.posted) (harrived : r'.arrived = r.arrived) :
    Link x p e' wire r' where
  seqs := by
    rw [hqueue, hposted, harrived]
    exact h.seqs
  arrived_le := by
    rw [hposted, harrived]
    exact h.arrived_le
  bytes := h.bytes

/-- The steps of the sending endpoint. -/
theorem Link.step (h : Link x p e wire r) (hstep : Endpoint.Step x p e a e') :
    Link x p e' wire r := by
  cases hstep with
  | startSend hpc => exact h.congr rfl rfl rfl
  | alloc hpc hid => exact h.congr rfl rfl rfl
  | allocFail hpc hid => exact h.congr rfl rfl rfl
  | stage hpc hfit => exact h.congr rfl rfl rfl
  | stageFail hpc hfit => exact h.congr rfl rfl rfl
  | @post offset id hpc =>
      have hle := h.arrived_le
      constructor
      · show wire.map Message.seq ++ (e.sendQueue ++ [_]).map SendWr.seq
          = List.range' r.arrived (e.posted + 1 - r.arrived)
        rw [List.map_append, ← List.append_assoc, h.seqs, Nat.succ_sub hle,
          List.range'_1_concat, Nat.add_sub_cancel' hle]
        rfl
      · exact hle.trans (Nat.le_succ _)
      · exact h.bytes
  | sendPoll hpc hcq => exact h.congr rfl rfl rfl
  | releaseNext hpc hmore => exact h.congr rfl rfl rfl
  | releaseLast hpc hmore => exact h.congr rfl rfl rfl
  | startRecv hpc => exact h.congr rfl rfl rfl
  | recvPoll hpc hcq hid => exact h.congr rfl rfl rfl
  | recvPollFail hpc hcq hid => exact h.congr rfl rfl rfl
  | copy hpc hsize => exact h.congr rfl rfl rfl
  | copyFail hpc hsize => exact h.congr rfl rfl rfl
  | repostNext hpc hmore => exact h.congr rfl rfl rfl
  | repostLast hpc hmore => exact h.congr rfl rfl rfl
  | complete hpending => exact h.congr rfl rfl rfl

/-- Taking a received message out of the completion queue does not change how many
have arrived. -/
theorem Endpoint.arrived_recvPoll {c : Completion} {cq : List Completion} (hcq : e.cq = c :: cq)
    (hkind : c.IsReceived) :
    (e.recvPolls ++ [c]).length + (arrivals cq).length = e.arrived := by
  have hlength := length_arrivals_cons_of_isReceived cq hkind
  rw [← hcq] at hlength
  rw [Endpoint.arrived, hlength, List.length_append, List.length_singleton]
  omega

/-- The steps of the receiving endpoint. -/
theorem Endpoint.arrived_step (hown : r.PollsOwn a) (hstep : Endpoint.Step x p r a r') :
    r'.arrived = r.arrived := by
  cases hstep with
  | startSend hpc => rfl
  | alloc hpc hid => rfl
  | allocFail hpc hid => rfl
  | stage hpc hfit => rfl
  | stageFail hpc hfit => rfl
  | post hpc => rfl
  | @sendPoll offset id seq c cq hpc hcq =>
      show r.recvPolls.length + (arrivals cq).length = r.arrived
      rw [arrivals_of_sendPoll hown hcq]
      rfl
  | releaseNext hpc hmore => rfl
  | releaseLast hpc hmore => rfl
  | startRecv hpc => rfl
  | recvPoll hpc hcq hid => exact arrived_recvPoll hcq (hown.received hcq)
  | recvPollFail hpc hcq hid => exact arrived_recvPoll hcq (hown.received hcq)
  | copy hpc hsize => rfl
  | copyFail hpc hsize => rfl
  | repostNext hpc hmore => rfl
  | repostLast hpc hmore => rfl
  | complete hpending =>
      show r.recvPolls.length + (arrivals (r.cq ++ [_])).length = r.arrived
      rw [arrivals_concat_sent]
      rfl

theorem Link.transmitted (h : Link x p e wire r) (hsend : SendSide x p e) {w : SendWr}
    {sendQueue : List SendWr} (hqueue : e.sendQueue = w :: sendQueue) :
    Link x p (e.transmitted w sendQueue) (wire ++ [⟨e.mem.read ⟨w.id, 0, w.len⟩, w.seq⟩]) r := by
  have hseqs := h.seqs
  have hw : w ∈ e.sendQueue := hqueue ▸ List.mem_cons_self
  obtain ⟨hlen, hchunk⟩ := hsend.queue w hw
  constructor
  · rw [hqueue, List.map_cons] at hseqs
    rw [List.map_append, List.append_assoc]
    exact hseqs
  · exact h.arrived_le
  · intro m hm
    rcases List.mem_append.mp hm with hm | hm
    · exact h.bytes m hm
    · rw [List.mem_singleton.mp hm]
      show e.mem.read ⟨w.id, 0, w.len⟩ = frame (x.chunk p w.seq)
      rw [hlen]
      exact hchunk

/-- The oldest message on the wire is the next one to arrive. -/
theorem Link.head {msg : Message} (h : Link x p e (msg :: wire) r) :
    msg.seq = r.arrived ∧ r.arrived < e.posted ∧
      wire.map Message.seq ++ e.sendQueue.map SendWr.seq
        = List.range' (r.arrived + 1) (e.posted - (r.arrived + 1)) := by
  obtain ⟨hseq, hpos, hrest⟩ := List.range'_eq_cons_iff.mp h.seqs.symm
  rw [← hseq] at hrest
  exact ⟨hseq.symm, Nat.lt_of_sub_pos hpos, hrest⟩

theorem Link.received {msg : Message} (h : Link x p e (msg :: wire) r) (id : ℕ)
    (recvQueue : List ℕ) : Link x p e wire (r.received id recvQueue msg) := by
  have harrived : (r.received id recvQueue msg).arrived = r.arrived + 1 := by
    show r.recvPolls.length + (arrivals (r.cq ++ [_])).length = r.arrived + 1
    rw [arrivals_concat_received, List.length_append]
    rfl
  constructor
  · rw [harrived]
    exact h.head.2.2
  · rw [harrived]
    exact h.head.2.1
  · intro m hm
    exact h.bytes m (List.mem_cons_of_mem msg hm)

/-! ### A direction -/

/-- The messages from the endpoint `p`, with state `e`, to `p.peer`, with state `r`. -/
structure Flow (x : Calls) (p : Side) (e : Endpoint) (wire : List Message) (r : Endpoint) :
    Prop where
  one : e.OneSend
  send : SendSide x p e
  recv : RecvSide x p r
  link : Link x p e wire r

section Flow

variable (h : Flow x p e wire r)
include h

theorem Flow.step_send (hord : e.Orderly x p a) (hstep : Endpoint.Step x p e a e') :
    Flow x p e' wire r :=
  ⟨h.one.step hstep, h.send.step h.one hord hstep, h.recv, h.link.step hstep⟩

/-- What has been received was short enough to be sent. -/
theorem Flow.small : ∀ j < r.recvPolls.length, (x.chunk p j).length + 8 < 2 ^ 32 := by
  intro j hj
  apply h.send.small j
  calc j < r.recvPolls.length := hj
    _ ≤ r.arrived := Nat.le_add_right _ _
    _ ≤ e.posted := h.link.arrived_le

theorem Flow.step_recv (hbuffer : (x.config p.peer).bufferSize = (x.config p).bufferSize)
    (hsize : ∀ k, x.size p.peer k = (x.data p k).length)
    (hord : r.Orderly x p.peer a) (hstep : Endpoint.Step x p.peer r a r') :
    Flow x p e wire r' :=
  ⟨h.one, h.send, h.recv.step hbuffer hsize h.small hord hstep,
    h.link.congr rfl rfl (Endpoint.arrived_step hord.2 hstep)⟩

theorem Flow.transmit_send {w : SendWr} {sendQueue : List SendWr}
    (hqueue : e.sendQueue = w :: sendQueue) :
    Flow x p (e.transmitted w sendQueue)
      (wire ++ [⟨e.mem.read ⟨w.id, 0, w.len⟩, w.seq⟩]) r :=
  ⟨h.one.of_eq rfl rfl, h.send.transmitted hqueue, h.recv, h.link.transmitted h.send hqueue⟩

theorem Flow.transmit_recv (w : SendWr) (sendQueue : List SendWr) :
    Flow x p e wire (r.transmitted w sendQueue) :=
  ⟨h.one, h.send, h.recv.congr rfl rfl rfl rfl rfl rfl rfl fun _ _ _ hchunk => hchunk,
    h.link.congr rfl rfl rfl⟩

theorem Flow.deliver_send {id : ℕ} (hstaged : ¬ e.Staged id) (recvQueue : List ℕ)
    (msg : Message) : Flow x p (e.received id recvQueue msg) wire r :=
  ⟨h.one.of_eq rfl rfl, h.send.received hstaged recvQueue msg, h.recv, h.link.congr rfl rfl rfl⟩

end Flow

theorem Flow.deliver_recv {msg : Message} (h : Flow x p e (msg :: wire) r) {id : ℕ}
    {recvQueue : List ℕ} (hqueue : r.recvQueue = id :: recvQueue) :
    Flow x p e wire (r.received id recvQueue msg) :=
  ⟨h.one, h.send,
    h.recv.received hqueue h.link.head.1 (h.link.bytes msg List.mem_cons_self),
    h.link.received id recvQueue⟩

/-! ### Runs -/

namespace State

/-- The step does not get in the way of the other direction. -/
def Undisturbed (x : Calls) (s : State) (a : Side × Action) : Prop :=
  (s.endpoint a.1).Undisturbed x a.1 a.2

def Orderly (x : Calls) (s : State) (a : Side × Action) : Prop :=
  (s.endpoint a.1).Orderly x a.1 a.2

/-- Both directions are in order. -/
def Flows (x : Calls) (s : State) : Prop :=
  ∀ p, Flow x p (s.endpoint p) (s.wire p) (s.endpoint p.peer)

end State

variable {s t : State}

theorem State.flows_connected (x : Calls) (mem : Side → Mem ℕ UInt8) :
    (State.connected x mem).Flows x := by
  intro p
  constructor
  · exact State.oneSend_connected x mem p
  · constructor
    · exact fun _ => rfl
    · rfl
    · intro hpos
      cases hpos
    · intro j hj
      cases hj
    · intro w hw
      cases hw
    · intro q hq
      cases hq
  · constructor
    · rfl
    · show (List.range (x.config p.peer).bufferCount ++ [] ++ []).Nodup
      rw [List.append_nil, List.append_nil]
      exact List.nodup_range
    · intro id hid
      have hid : id ∈ List.range (x.config p.peer).bufferCount ++ [] ++ [] := hid
      rw [List.append_nil, List.append_nil] at hid
      exact List.mem_range.mp hid
    · intro a ha
      cases ha
    · rfl
    · intro c hc
      cases hc
    · rfl
  · constructor
    · rfl
    · exact le_rfl
    · intro m hm
      cases hm

/-- **Step lemma.**  An orderly step of any kind keeps a direction in order. -/
theorem State.flow_step (hbuffer : (x.config p.peer).bufferSize = (x.config p).bufferSize)
    (hsize : ∀ k, x.size p.peer k = (x.data p k).length)
    (h : Flow x p (s.endpoint p) (s.wire p) (s.endpoint p.peer)) {a : Side × Action}
    (hord : s.Orderly x a) (hstep : Step x s a t) :
    Flow x p (t.endpoint p) (t.wire p) (t.endpoint p.peer) := by
  cases hstep with
  | @own _ q a e hstep =>
      rcases Side.eq_or_eq_peer p q with rfl | rfl
      · show Flow x q (Function.update s.endpoint q e q) (s.wire q)
          (Function.update s.endpoint q e q.peer)
        rw [Function.update_self, Function.update_of_ne q.peer_ne]
        exact h.step_send hord hstep
      · show Flow x p (Function.update s.endpoint p.peer e p) (s.wire p)
          (Function.update s.endpoint p.peer e p.peer)
        rw [Function.update_self, Function.update_of_ne p.peer_ne.symm]
        exact h.step_recv hbuffer hsize hord hstep
  | @transmit _ q w sendQueue hqueue =>
      rcases Side.eq_or_eq_peer p q with rfl | rfl
      · show Flow x q (Function.update s.endpoint q _ q) (Function.update s.wire q _ q)
          (Function.update s.endpoint q _ q.peer)
        rw [Function.update_self, Function.update_self, Function.update_of_ne q.peer_ne]
        exact h.transmit_send hqueue
      · show Flow x p (Function.update s.endpoint p.peer _ p) (Function.update s.wire p.peer _ p)
          (Function.update s.endpoint p.peer _ p.peer)
        rw [Function.update_self, Function.update_of_ne p.peer_ne.symm,
          Function.update_of_ne p.peer_ne.symm]
        exact h.transmit_recv w sendQueue
  | @deliver _ q msg wire id recvQueue hwire hqueue hfit =>
      have hstaged := hord.1 id (by
        show (s.endpoint q).recvQueue.head? = some id
        rw [hqueue]
        rfl)
      rcases Side.eq_or_eq_peer p q with rfl | rfl
      · show Flow x q (Function.update s.endpoint q _ q) (Function.update s.wire q.peer _ q)
          (Function.update s.endpoint q _ q.peer)
        rw [Function.update_self, Function.update_of_ne q.peer_ne,
          Function.update_of_ne q.peer_ne.symm]
        exact h.deliver_send hstaged recvQueue msg
      · show Flow x p (Function.update s.endpoint p.peer _ p)
          (Function.update s.wire p.peer.peer _ p) (Function.update s.endpoint p.peer _ p.peer)
        rw [Side.peer_peer] at hwire ⊢
        rw [Function.update_self, Function.update_self, Function.update_of_ne p.peer_ne.symm]
        rw [hwire] at h
        exact h.deliver_recv hqueue

variable (hbuffer : ∀ p, (x.config p.peer).bufferSize = (x.config p).bufferSize)
  (hsize : ∀ p k, x.size p.peer k = (x.data p k).length)

include hbuffer hsize in
theorem State.Flows.step (h : s.Flows x) {a : Side × Action} (hord : s.Orderly x a)
    (hstep : Step x s a t) : t.Flows x :=
  fun p => State.flow_step (hbuffer p) (hsize p) (h p) hord hstep

/-! ### The order of polls -/

/-- The kind of the entry that a step adds to the completion queue. -/
def Action.completes : Action → Option Kind
  | complete => some .send
  | deliver => some .recv
  | _ => none

/-- The completions at `p` in a run with these labels, in their order. -/
def completions (p : Side) (l : List (Side × Action)) : List Kind :=
  l.filterMap fun a => if a.1 = p then a.2.completes else none

/-- The polls of the two calls at `p`, in their order. -/
def polls (p : Side) (l : List (Side × Action)) : List Kind :=
  l.filterMap fun a => if a.1 = p then a.2.polls else none

/-- At each endpoint the calls poll in the order of the completions. -/
def PolledInOrder (l : List (Side × Action)) : Prop := ∀ p, polls p l <+: completions p l

/-- The polls to come take the entries that are there and those to come, in order. -/
def State.PollsInOrder (s : State) (l : List (Side × Action)) : Prop :=
  ∀ p, polls p l <+: (s.endpoint p).cq.map Completion.kind ++ completions p l

section Order

variable {q : Side} {l : List (Side × Action)}

theorem completions_cons_of_ne {a : Side × Action} (h : a.1 ≠ q) :
    completions q (a :: l) = completions q l := by
  rw [completions, List.filterMap_cons, if_neg h]
  rfl

theorem polls_cons_of_ne {a : Side × Action} (h : a.1 ≠ q) : polls q (a :: l) = polls q l := by
  rw [polls, List.filterMap_cons, if_neg h]
  rfl

theorem completions_cons_self (p : Side) (a : Action) :
    completions p ((p, a) :: l) = a.completes.toList ++ completions p l := by
  rw [completions, List.filterMap_cons, if_pos rfl]
  cases a <;> rfl

theorem polls_cons_self (p : Side) (a : Action) :
    polls p ((p, a) :: l) = a.polls.toList ++ polls p l := by
  rw [polls, List.filterMap_cons, if_pos rfl]
  cases a <;> rfl

/-- A step takes the oldest entry, or adds entries at the end. -/
theorem Endpoint.Step.cq_cases (hstep : Endpoint.Step x p e a e') :
    (a.completes = none ∧ ∃ k c, a.polls = some k ∧ e.cq = c :: e'.cq) ∨
      (a.polls = none ∧ e'.cq.map Completion.kind
        = e.cq.map Completion.kind ++ a.completes.toList) := by
  cases hstep with
  | sendPoll hpc hcq => exact .inl ⟨rfl, .send, _, rfl, hcq⟩
  | recvPoll hpc hcq hid => exact .inl ⟨rfl, .recv, _, rfl, hcq⟩
  | recvPollFail hpc hcq hid => exact .inl ⟨rfl, .recv, _, rfl, hcq⟩
  | complete hpending => exact .inr ⟨rfl, List.map_append⟩
  | _ => exact .inr ⟨rfl, (List.append_nil _).symm⟩

theorem Step.cq_cases {b : Side × Action} (hstep : Step x s b t) :
    (∀ q, b.1 ≠ q → (t.endpoint q).cq = (s.endpoint q).cq) ∧
      ((b.2.completes = none ∧ ∃ k c, b.2.polls = some k ∧
          (s.endpoint b.1).cq = c :: (t.endpoint b.1).cq) ∨
        (b.2.polls = none ∧ (t.endpoint b.1).cq.map Completion.kind
          = (s.endpoint b.1).cq.map Completion.kind ++ b.2.completes.toList)) := by
  have hother (p : Side) (e : Endpoint) (q : Side) (hq : p ≠ q) :
      (Function.update s.endpoint p e q).cq = (s.endpoint q).cq := by
    rw [Function.update_of_ne hq.symm]
  cases hstep with
  | @own _ p a e hstep =>
      refine ⟨hother p e, ?_⟩
      show (_ ∧ ∃ k c, _ ∧ _ = c :: (Function.update s.endpoint p e p).cq) ∨
        (_ ∧ (Function.update s.endpoint p e p).cq.map Completion.kind = _)
      rw [Function.update_self]
      exact hstep.cq_cases
  | @transmit _ p w sendQueue hqueue =>
      refine ⟨hother p _, .inr ⟨rfl, ?_⟩⟩
      show (Function.update s.endpoint p _ p).cq.map Completion.kind = _
      rw [Function.update_self]
      exact (List.append_nil _).symm
  | @deliver _ p msg wire id recvQueue hwire hqueue hfit =>
      refine ⟨hother p _, .inr ⟨rfl, ?_⟩⟩
      show (Function.update s.endpoint p _ p).cq.map Completion.kind = _
      rw [Function.update_self]
      exact List.map_append

/-- **Step lemma.**  The polls of a run are in order if and only if its first step polls
its own completion and those of the rest are. -/
theorem Step.pollsInOrder_cons_iff {b : Side × Action} (hstep : Step x s b t) :
    s.PollsInOrder (b :: l) ↔ (s.endpoint b.1).PollsOwn b.2 ∧ t.PollsInOrder l := by
  obtain ⟨p, a⟩ := b
  obtain ⟨hother, hown⟩ := hstep.cq_cases
  have hrest : (∀ q, polls q ((p, a) :: l)
        <+: (s.endpoint q).cq.map Completion.kind ++ completions q ((p, a) :: l)) ↔
      (polls p ((p, a) :: l)
        <+: (s.endpoint p).cq.map Completion.kind ++ completions p ((p, a) :: l)) ∧
      ∀ q, p ≠ q → polls q l <+: (t.endpoint q).cq.map Completion.kind ++ completions q l := by
    constructor
    · intro h
      refine ⟨h p, fun q hq => ?_⟩
      rw [hother q hq, ← polls_cons_of_ne (a := (p, a)) hq,
        ← completions_cons_of_ne (a := (p, a)) hq]
      exact h q
    · rintro ⟨hp, hq⟩ q
      by_cases hne : p = q
      · exact hne ▸ hp
      · rw [polls_cons_of_ne (a := (p, a)) hne, completions_cons_of_ne (a := (p, a)) hne,
          ← hother q hne]
        exact hq q hne
  have hself : (polls p ((p, a) :: l)
        <+: (s.endpoint p).cq.map Completion.kind ++ completions p ((p, a) :: l)) ↔
      (s.endpoint p).PollsOwn a ∧
        polls p l <+: (t.endpoint p).cq.map Completion.kind ++ completions p l := by
    rw [polls_cons_self, completions_cons_self]
    rcases hown with ⟨hcompletes, k, c, hpolls, hcq⟩ | ⟨hpolls, hcq⟩
    · have hcompletes : a.completes = none := hcompletes
      have hpolls : a.polls = some k := hpolls
      have hcq : (s.endpoint p).cq = c :: (t.endpoint p).cq := hcq
      have hkind : (s.endpoint p).PollsOwn a ↔ k = c.kind := by
        constructor
        · intro h
          exact (h k c hpolls (by rw [hcq]; rfl)).symm
        · rintro rfl k' c' hk' hc'
          rw [hpolls] at hk'
          rw [hcq] at hc'
          cases hk'
          cases hc'
          rfl
      rw [hcompletes, hpolls, hcq, hkind]
      exact List.cons_prefix_cons
    · have hpolls : a.polls = none := hpolls
      have hcq : (t.endpoint p).cq.map Completion.kind
          = (s.endpoint p).cq.map Completion.kind ++ a.completes.toList := hcq
      have hkind := Endpoint.pollsOwn_of_polls_eq_none (e := s.endpoint p) hpolls
      rw [hpolls, hcq, List.append_assoc]
      exact (and_iff_right hkind).symm
  refine hrest.trans ((and_congr_left' hself).trans ?_)
  constructor
  · rintro ⟨⟨hpoll, hp⟩, hq⟩
    refine ⟨hpoll, fun q => ?_⟩
    by_cases hne : p = q
    · exact hne ▸ hp
    · exact hq q hne
  · rintro ⟨hpoll, hall⟩
    exact ⟨⟨hpoll, hall p⟩, fun q _ => hall q⟩

end Order

section Polls

/-- Each poll of `Send` has returned the completion of its own send, and each poll of
`Recv` that of a receive. -/
structure Endpoint.OwnPolls (e : Endpoint) : Prop where
  sends : ∀ q ∈ e.sendPolls, q.2 = .sent q.1
  recvs : ∀ c ∈ e.recvPolls, c.IsReceived

/-- What the polls have returned so far does not change. -/
theorem Endpoint.Step.ownPolls (hstep : Endpoint.Step x p e a e') (h : e'.OwnPolls) :
    e.PollsOwn a ∧ e.OwnPolls := by
  cases hstep with
  | @sendPoll offset id seq c cq hpc hcq =>
      have hsent : c = .sent seq :=
        h.sends (seq, c) (List.mem_append_right _ (List.mem_singleton_self _))
      refine ⟨?_, fun q hq => h.sends q (List.mem_append_left _ hq), h.recvs⟩
      intro k c' hk hc'
      rw [hcq] at hc'
      cases hk
      cases hc'
      rw [hsent]
      rfl
  | @recvPoll offset got c cq hpc hcq hid =>
      have hrecv : c.IsReceived := h.recvs c (List.mem_append_right _ (List.mem_singleton_self _))
      refine ⟨?_, h.sends, fun c' hc' => h.recvs c' (List.mem_append_left _ hc')⟩
      exact pollsOwn_recvPoll hcq hrecv
  | @recvPollFail offset got c cq hpc hcq hid =>
      have hrecv : c.IsReceived := h.recvs c (List.mem_append_right _ (List.mem_singleton_self _))
      refine ⟨?_, h.sends, fun c' hc' => h.recvs c' (List.mem_append_left _ hc')⟩
      exact pollsOwn_recvPoll hcq hrecv
  | _ => exact ⟨pollsOwn_of_polls_eq_none rfl, h.sends, h.recvs⟩

theorem Step.ownPolls {b : Side × Action} (hstep : Step x s b t)
    (h : ∀ p, (t.endpoint p).OwnPolls) :
    (s.endpoint b.1).PollsOwn b.2 ∧ ∀ p, (s.endpoint p).OwnPolls := by
  have hkeep (p : Side) (e : Endpoint) (he : (s.endpoint p).OwnPolls)
      (ht : ∀ q, (Function.update s.endpoint p e q).OwnPolls) (q : Side) :
      (s.endpoint q).OwnPolls := by
    by_cases hq : q = p
    · exact hq ▸ he
    · rw [← Function.update_of_ne hq e s.endpoint]
      exact ht q
  cases hstep with
  | @own _ p a e hstep =>
      have hp : (Function.update s.endpoint p e p).OwnPolls := h p
      rw [Function.update_self] at hp
      obtain ⟨hown, hs⟩ := hstep.ownPolls hp
      exact ⟨hown, hkeep p e hs h⟩
  | @transmit _ p w sendQueue hqueue =>
      have hp := h p
      simp only [Function.update_self] at hp
      exact ⟨Endpoint.pollsOwn_of_polls_eq_none rfl, hkeep p _ ⟨hp.sends, hp.recvs⟩ h⟩
  | @deliver _ p msg wire id recvQueue hwire hqueue hfit =>
      have hp := h p
      simp only [Function.update_self] at hp
      exact ⟨Endpoint.pollsOwn_of_polls_eq_none rfl, hkeep p _ ⟨hp.sends, hp.recvs⟩ h⟩

variable {P : State → Side × Action → Prop} {l : List (Side × Action)}

/-- **Run lemma.**  Where all polls have returned what their callers waited for, they were
in order. -/
theorem pollsInOrder_of_ownPolls (h : Lts.Run (Step x) P s l t)
    (hown : ∀ p, (t.endpoint p).OwnPolls) :
    s.PollsInOrder l ∧ ∀ p, (s.endpoint p).OwnPolls := by
  induction h with
  | nil s => exact ⟨fun p => List.nil_prefix, hown⟩
  | cons hstep hp _ ih =>
      obtain ⟨horder, hnext⟩ := ih hown
      obtain ⟨hpoll, hs⟩ := hstep.ownPolls hnext
      exact ⟨hstep.pollsInOrder_cons_iff.mpr ⟨hpoll, horder⟩, hs⟩

/-- In a run with polls in order every step polls its own completion. -/
theorem orderly_of_pollsInOrder (h : Lts.Run (Step x) (State.Undisturbed x) s l t)
    (horder : s.PollsInOrder l) : Lts.Run (Step x) (State.Orderly x) s l t := by
  induction h with
  | nil s => exact .nil s
  | cons hstep hp _ ih =>
      obtain ⟨hpoll, hnext⟩ := hstep.pollsInOrder_cons_iff.mp horder
      exact .cons hstep ⟨hp, hpoll⟩ (ih hnext)

end Polls

include hbuffer hsize in
/-- **Delivery.**  Take any run in which the two directions do not get in each other's
way in a buffer.  Each poll has returned its caller's completion and the `k`-th
successful `Recv` has delivered the data of the peer's `k`-th `Send`, if and only if the
polls were in the order of the completions. -/
theorem delivers_iff_polledInOrder {mem : Side → Mem ℕ UInt8} {l : List (Side × Action)}
    (h : Lts.Run (Step x) (State.Undisturbed x) (.connected x mem) l t) :
    (∀ p, (t.endpoint p).OwnPolls ∧
        ∀ k d, (t.endpoint p.peer).delivered[k]? = some d → d = x.data p k)
      ↔ PolledInOrder l := by
  constructor
  · intro hdelivers
    exact (pollsInOrder_of_ownPolls h fun p => (hdelivers p).1).1
  · intro horder p
    have hflows : t.Flows x :=
      (Lts.Run.preserve (T := Step x) (P := State.Orderly x) (J := State.Flows x)
        (Q := fun _ _ => True)
        (fun hs hstep hord => ⟨hs.step hbuffer hsize hord hstep, trivial⟩)
        (State.flows_connected x mem) (orderly_of_pollsInOrder h horder)).2
    have hrecvs := (hflows p.peer).recv.polls
    rw [Side.peer_peer] at hrecvs
    refine ⟨⟨(hflows p).send.polls, hrecvs⟩, fun k d hd => ?_⟩
    rw [(hflows p).recv.delivered, List.getElem?_map] at hd
    obtain ⟨k', hk', rfl⟩ := Option.map_eq_some_iff.mp hd
    obtain ⟨hlt, hget⟩ := List.getElem?_eq_some_iff.mp hk'
    rw [List.getElem_range] at hget
    rw [hget]

/-- Two buffers of 16 bytes; the `k`-th message of each side is the byte `k`. -/
def ping : Calls where
  config _ := ⟨16, 2, by decide, by decide⟩
  data _ k := [UInt8.ofNat k]
  size _ _ := 1

/-- A message each way, whose arrivals and completions share the completion queues, and a
second one of the accepting side. -/
def pingRun : List (Side × Action) :=
  [(.connecting, .startSend), (.connecting, .alloc), (.connecting, .stage),
    (.connecting, .post), (.connecting, .transmit), (.accepting, .startSend),
    (.accepting, .alloc), (.accepting, .stage), (.accepting, .post), (.accepting, .transmit),
    -- the arrival comes before the completion here, and after it there
    (.connecting, .deliver), (.connecting, .complete), (.accepting, .complete),
    (.accepting, .deliver), (.connecting, .startRecv), (.connecting, .recvPoll),
    (.connecting, .copy), (.connecting, .repost), (.connecting, .sendPoll),
    (.connecting, .release), (.accepting, .sendPoll), (.accepting, .release),
    (.accepting, .startRecv), (.accepting, .recvPoll), (.accepting, .copy),
    (.accepting, .repost), (.accepting, .startSend), (.accepting, .alloc),
    (.accepting, .stage), (.accepting, .post), (.accepting, .transmit),
    (.connecting, .deliver), (.connecting, .startRecv), (.connecting, .recvPoll),
    (.connecting, .copy), (.connecting, .repost)]

/-- The three messages of `pingRun` are delivered. -/
theorem delivers_iff_polledInOrder_ping :
    ∃ t : State, Lts.Run (Step ping) (State.Undisturbed ping) (.connected ping fun _ _ _ => 0)
        pingRun t ∧
      (t.endpoint .connecting).delivered.length = 2 ∧
      (t.endpoint .accepting).delivered.length = 1 ∧
      ∀ p, (t.endpoint p).OwnPolls ∧
        ∀ k d, (t.endpoint p.peer).delivered[k]? = some d → d = ping.data p k := by
  have hrun : ∃ t : State, Lts.Run (Step ping) (State.Undisturbed ping)
      (.connected ping fun _ _ _ => 0) pingRun t ∧
      (t.endpoint .connecting).delivered.length = 2 ∧
      (t.endpoint .accepting).delivered.length = 1 := by
    refine ⟨_, .cons (.own (.startSend rfl)) trivial <|
      .cons (.own (.alloc rfl rfl)) trivial <|
      .cons (.own (.stage rfl (by decide))) (by rintro _ _ ⟨⟩; rfl) <|
      .cons (.own (.post rfl)) (by rintro _ _ ⟨⟩; decide) <|
      .cons (.transmit rfl) trivial <|
      .cons (.own (.startSend rfl)) trivial <|
      .cons (.own (.alloc rfl rfl)) trivial <|
      .cons (.own (.stage rfl (by decide))) (by rintro _ _ ⟨⟩; rfl) <|
      .cons (.own (.post rfl)) (by rintro _ _ ⟨⟩; decide) <|
      .cons (.transmit rfl) trivial <|
      .cons (.deliver rfl rfl (by decide)) (by rintro _ ⟨⟩ (⟨_, ⟨⟩⟩ | ⟨_, ⟨⟩, _⟩)) <|
      .cons (.own (.complete rfl)) trivial <|
      .cons (.own (.complete rfl)) trivial <|
      .cons (.deliver rfl rfl (by decide)) (by rintro _ ⟨⟩ (⟨_, ⟨⟩⟩ | ⟨_, ⟨⟩, _⟩)) <|
      .cons (.own (.startRecv rfl)) trivial <|
      .cons (.own (.recvPoll rfl rfl (by decide))) trivial <|
      .cons (.own (.copy rfl (by decide))) trivial <|
      .cons (.own (.repostLast rfl (by decide))) trivial <|
      .cons (.own (.sendPoll rfl rfl)) trivial <|
      .cons (.own (.releaseLast rfl (by decide))) trivial <|
      .cons (.own (.sendPoll rfl rfl)) trivial <|
      .cons (.own (.releaseLast rfl (by decide))) trivial <|
      .cons (.own (.startRecv rfl)) trivial <|
      .cons (.own (.recvPoll rfl rfl (by decide))) trivial <|
      .cons (.own (.copy rfl (by decide))) trivial <|
      .cons (.own (.repostLast rfl (by decide))) trivial <|
      .cons (.own (.startSend rfl)) trivial <|
      .cons (.own (.alloc rfl rfl)) trivial <|
      .cons (.own (.stage rfl (by decide))) (by rintro _ _ ⟨⟩; rfl) <|
      .cons (.own (.post rfl)) (by rintro _ _ ⟨⟩; decide) <|
      .cons (.transmit rfl) trivial <|
      .cons (.deliver rfl rfl (by decide)) (by rintro _ ⟨⟩ (⟨_, ⟨⟩⟩ | ⟨_, ⟨⟩, _⟩)) <|
      .cons (.own (.startRecv rfl)) trivial <|
      .cons (.own (.recvPoll rfl rfl (by decide))) trivial <|
      .cons (.own (.copy rfl (by decide))) trivial <|
      .cons (.own (.repostLast rfl (by decide))) trivial (.nil _), rfl, rfl⟩
  obtain ⟨t, hrun, htwo, hone⟩ := hrun
  have horder : PolledInOrder pingRun := by
    intro p
    cases p
    · decide
    · decide
  exact ⟨t, hrun, htwo, hone,
    (delivers_iff_polledInOrder (fun _ => rfl) (fun _ _ => rfl) hrun).mpr horder⟩

/-- Both sides start a `Send`, and the message of the accepting side arrives before
the connecting side polls. -/
def crossedRun : List (Side × Action) :=
  [(.connecting, .startSend), (.connecting, .alloc), (.connecting, .stage),
    (.connecting, .post), (.connecting, .transmit), (.accepting, .startSend),
    (.accepting, .alloc), (.accepting, .stage), (.accepting, .post), (.accepting, .transmit),
    (.connecting, .deliver), (.connecting, .sendPoll), (.connecting, .complete),
    (.accepting, .complete), (.accepting, .sendPoll), (.accepting, .release),
    (.accepting, .startSend), (.accepting, .alloc), (.accepting, .stage), (.accepting, .post),
    (.accepting, .transmit), (.connecting, .deliver), (.connecting, .startRecv),
    (.connecting, .recvPoll), (.connecting, .copy), (.connecting, .repost)]

/-- In `crossedRun` the `Send` of the connecting side consumes the completion of a
receive and its `Recv` that of the send, from which it gets the buffer of the
second message. -/
theorem crossed_run_delivers_second :
    ∃ t : State, Lts.Run (Step ping) (fun _ _ => True) (.connected ping fun _ _ _ => 0)
        crossedRun t ∧
      (t.endpoint .connecting).sendPolls = [(0, .received 0 0)] ∧
      (t.endpoint .connecting).recvPolls = [.sent 0] ∧
      (t.endpoint .connecting).delivered = [[1]] ∧ ping.data .accepting 0 = [0] := by
  refine ⟨_, .cons (.own (.startSend rfl)) trivial <|
    .cons (.own (.alloc rfl rfl)) trivial <|
    .cons (.own (.stage rfl (by decide))) trivial <|
    .cons (.own (.post rfl)) trivial <|
    .cons (.transmit rfl) trivial <|
    .cons (.own (.startSend rfl)) trivial <|
    .cons (.own (.alloc rfl rfl)) trivial <|
    .cons (.own (.stage rfl (by decide))) trivial <|
    .cons (.own (.post rfl)) trivial <|
    .cons (.transmit rfl) trivial <|
    .cons (.deliver rfl rfl (by decide)) trivial <|
    .cons (.own (.sendPoll rfl rfl)) trivial <|
    .cons (.own (.complete rfl)) trivial <|
    .cons (.own (.complete rfl)) trivial <|
    .cons (.own (.sendPoll rfl rfl)) trivial <|
    .cons (.own (.releaseLast rfl (by decide))) trivial <|
    .cons (.own (.startSend rfl)) trivial <|
    .cons (.own (.alloc rfl rfl)) trivial <|
    .cons (.own (.stage rfl (by decide))) trivial <|
    .cons (.own (.post rfl)) trivial <|
    .cons (.transmit rfl) trivial <|
    .cons (.deliver rfl rfl (by decide)) trivial <|
    .cons (.own (.startRecv rfl)) trivial <|
    .cons (.own (.recvPoll rfl rfl (by decide))) trivial <|
    .cons (.own (.copy rfl (by decide))) trivial <|
    .cons (.own (.repostLast rfl (by decide))) trivial (.nil _), rfl, rfl, ?_, rfl⟩
  decide

end MiniCcl.TransportRdma
