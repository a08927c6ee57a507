/-
MiniCcl/RdmaPool.lean

Whether a pool buffer serves sending and receiving at once.

`in_use` tracks the sends only, and there is at most one of them at a time.  So
`AllocateBuffer` always hands out buffer 0 (`allocateBuffer_eq`), also while a
receive WR for it is posted.  From `Connect` on there is one for every buffer, and it
stays until a message comes, which takes an `AllocateBuffer` on the other side.  So
the first `AllocateBuffer` of a run, on either side, breaks the exclusive use, unless
the pool is empty: `pool_exclusive_iff`.
-/
import MiniCcl.Rdma

namespace MiniCcl.TransportRdma

namespace SendPc

/-- The buffer that `Send` has allocated. -/
def buffer : SendPc → Option ℕ
  | idle => none
  | alloc _ => none
  | stage _ id => some id
  | post _ id => some id
  | poll _ id _ => some id
  | release _ id => some id

end SendPc

namespace Endpoint

variable {x : Calls} {p : Side} {e e' : Endpoint} {a : Action} {c : PoolConfig}

/-! ### Who is in use -/

/-- The flag `in_use` is that of the buffer of the current `Send`, which is buffer 0. -/
structure OneSend (e : Endpoint) : Prop where
  flags : ∀ id, e.inUse id = true ↔ e.sendPc.buffer = some id
  zero : ∀ id, e.sendPc.buffer = some id → id = 0

theorem OneSend.of_free (hfree : ∀ id, e.inUse id = false) (hbuffer : e.sendPc.buffer = none) :
    e.OneSend := by
  constructor
  · intro id
    rw [hfree id, hbuffer]
    exact iff_of_false Bool.noConfusion nofun
  · intro id hid
    rw [hbuffer] at hid
    cases hid

theorem OneSend.of_eq (h : e.OneSend) (hinUse : e'.inUse = e.inUse)
    (hbuffer : e'.sendPc.buffer = e.sendPc.buffer) : e'.OneSend := by
  constructor
  · intro id
    rw [hinUse, hbuffer]
    exact h.flags id
  · intro id hid
    exact h.zero id (hbuffer ▸ hid)

theorem OneSend.free (h : e.OneSend) (hbuffer : e.sendPc.buffer = none) (id : ℕ) :
    e.inUse id = false := by
  rw [← Bool.not_eq_true, h.flags id, hbuffer]
  exact nofun

/-- `ReleaseBuffer` leaves no buffer in use. -/
theorem OneSend.release (h : e.OneSend) {id : ℕ} (hbuffer : e.sendPc.buffer = some id) (i : ℕ) :
    Function.update e.inUse id false i = false := by
  rcases eq_or_ne i id with rfl | hne
  · exact Function.update_self i false e.inUse
  · rw [Function.update_of_ne hne, ← Bool.not_eq_true, h.flags i, hbuffer]
    intro heq
    exact hne (Option.some.inj heq).symm

/-- As long as no buffer is in use, buffer 0 is handed out. -/
theorem allocateBuffer_eq (hfree : ∀ id, e.inUse id = false) {id : ℕ}
    (h : e.allocateBuffer c = some id) : id = 0 ∧ 0 < c.bufferCount := by
  unfold allocateBuffer at h
  cases hcount : c.bufferCount with
  | zero =>
      rw [hcount] at h
      cases h
  | succ n =>
      rw [hcount, List.range_succ_eq_map, List.find?_cons, hfree 0] at h
      cases h
      exact ⟨rfl, Nat.succ_pos n⟩

theorem OneSend.step (h : e.OneSend) (hstep : Step x p e a e') : e'.OneSend := by
  cases hstep with
  | startSend hpc => exact h.of_eq rfl (by rw [hpc]; rfl)
  | @alloc offset id hpc hid =>
      have hfree := h.free (by rw [hpc]; rfl)
      constructor
      · intro i
        show Function.update e.inUse id true i = true ↔ some id = some i
        rcases eq_or_ne i id with rfl | hne
        · exact iff_of_true (Function.update_self ..) rfl
        · rw [Function.update_of_ne hne, hfree i]
          exact iff_of_false Bool.noConfusion fun heq => hne (Option.some.inj heq).symm
      · intro i hi
        rw [← Option.some.inj hi]
        exact (allocateBuffer_eq hfree hid).1
  | allocFail hpc hid => exact h.of_eq rfl (by rw [hpc]; rfl)
  | stage hpc hfit => exact h.of_eq rfl (by rw [hpc]; rfl)
  | stageFail hpc hfit => exact .of_free (h.release (by rw [hpc]; rfl)) rfl
  | post hpc => exact h.of_eq rfl (by rw [hpc]; rfl)
  | sendPoll hpc hcq => exact h.of_eq rfl (by rw [hpc]; rfl)
  | releaseNext hpc hmore => exact .of_free (h.release (by rw [hpc]; rfl)) rfl
  | releaseLast hpc hmore => exact .of_free (h.release (by rw [hpc]; rfl)) rfl
  | startRecv hpc => exact h.of_eq rfl rfl
  | recvPoll hpc hcq hid => exact h.of_eq rfl rfl
  | recvPollFail hpc hcq hid => exact h.of_eq rfl rfl
  | copy hpc hsize => exact h.of_eq rfl rfl
  | copyFail hpc hsize => exact h.of_eq rfl rfl
  | repostNext hpc hmore => exact h.of_eq rfl rfl
  | repostLast hpc hmore => exact h.of_eq rfl rfl
  | complete hpending => exact h.of_eq rfl rfl

/-! ### Exclusive use -/

/-- No buffer of a `Send` is the target of a posted receive or holds a message
that `Recv` has not copied out. -/
def Exclusive (e : Endpoint) : Prop :=
  ∀ id, e.inUse id = true → id ∉ e.recvQueue ∧ e.unread id = false

/-- As after `Connect` or `Accept`, but for calls that have begun: every buffer is
posted for receiving, and nothing has been sent or received. -/
structure Untouched (c : PoolConfig) (e : Endpoint) : Prop where
  recvQueue : e.recvQueue = List.range c.bufferCount
  free : ∀ id, e.inUse id = false
  buffer : e.sendPc.buffer = none
  sendQueue : e.sendQueue = []
  pending : e.pending = []
  cq : e.cq = []
  waiting : e.recvPc = .idle ∨ e.recvPc = .poll 0 []

theorem Untouched.exclusive (h : e.Untouched c) : e.Exclusive := by
  intro id hid
  rw [h.free id] at hid
  cases hid

/-- `AllocateBuffer` hands out a buffer that is posted. -/
theorem Untouched.not_exclusive_alloc (h : e.Untouched c) {id : ℕ}
    (hid : e.allocateBuffer c = some id) (sendPc : SendPc) :
    0 < c.bufferCount ∧
      ¬ ({ e with inUse := Function.update e.inUse id true, sendPc } : Endpoint).Exclusive := by
  obtain ⟨rfl, hcount⟩ := allocateBuffer_eq h.free hid
  refine ⟨hcount, fun hexcl => ?_⟩
  apply (hexcl 0 (Function.update_self 0 true e.inUse)).1
  show 0 ∈ e.recvQueue
  rw [h.recvQueue]
  exact List.mem_range.mpr hcount

/-- An empty pool has no buffer to hand out, and any other pool has buffer 0. -/
theorem Untouched.bufferCount_eq_zero (h : e.Untouched c) (hid : e.allocateBuffer c = none) :
    c.bufferCount = 0 := by
  by_contra hcount
  have hnone := List.find?_eq_none.mp hid 0 (List.mem_range.mpr (Nat.pos_of_ne_zero hcount))
  rw [h.free 0] at hnone
  exact hnone rfl

/-- The threads go on to where they wait. -/
theorem Untouched.congr (h : e.Untouched c) {sends : ℕ} {sendPc : SendPc} {recvPc : RecvPc}
    (hbuffer : sendPc.buffer = none) (hwaiting : recvPc = .idle ∨ recvPc = .poll 0 []) :
    ({ e with sends, sendPc, recvPc } : Endpoint).Untouched c :=
  ⟨h.recvQueue, h.free, hbuffer, h.sendQueue, h.pending, h.cq, hwaiting⟩

/-- **Step lemma.**  The step is an `AllocateBuffer` on a non-empty pool and breaks the
exclusive use, or it is not and leaves the endpoint untouched. -/
theorem Untouched.step (h : e.Untouched (x.config p)) (hstep : Step x p e a e') :
    ((a = .alloc ∧ 0 < (x.config p).bufferCount) ∧ ¬ e'.Exclusive) ∨
      (¬ (a = .alloc ∧ 0 < (x.config p).bufferCount) ∧ e'.Untouched (x.config p)) := by
  have hother {a : Action} (ha : a ≠ .alloc) :
      ¬ (a = .alloc ∧ 0 < (x.config p).bufferCount) := fun hand => ha hand.1
  have hbuffer := h.buffer
  have hwaiting := h.waiting
  cases hstep with
  | startSend hpc => exact .inr ⟨hother Action.noConfusion, h.congr rfl hwaiting⟩
  | alloc hpc hid =>
      obtain ⟨hcount, hbreak⟩ := h.not_exclusive_alloc hid _
      exact .inl ⟨⟨rfl, hcount⟩, hbreak⟩
  | allocFail hpc hid =>
      have hcount := h.bufferCount_eq_zero hid
      exact .inr ⟨fun hand => Nat.ne_of_gt hand.2 hcount, h.congr rfl hwaiting⟩
  | startRecv hpc => exact .inr ⟨hother Action.noConfusion, h.congr hbuffer (.inr rfl)⟩
  -- no other step is possible
  | stage hpc hfit =>
      rw [hpc] at hbuffer
      cases hbuffer
  | stageFail hpc hfit =>
      rw [hpc] at hbuffer
      cases hbuffer
  | post hpc =>
      rw [hpc] at hbuffer
      cases hbuffer
  | sendPoll hpc hcq =>
      rw [hpc] at hbuffer
      cases hbuffer
  | releaseNext hpc hmore =>
      rw [hpc] at hbuffer
      cases hbuffer
  | releaseLast hpc hmore =>
      rw [hpc] at hbuffer
      cases hbuffer
  | recvPoll hpc hcq hid =>
      rw [h.cq] at hcq
      cases hcq
  | recvPollFail hpc hcq hid =>
      rw [h.cq] at hcq
      cases hcq
  | copy hpc hsize => rcases hwaiting with hw | hw <;> cases hw.symm.trans hpc
  | copyFail hpc hsize => rcases hwaiting with hw | hw <;> cases hw.symm.trans hpc
  | repostNext hpc hmore => rcases hwaiting with hw | hw <;> cases hw.symm.trans hpc
  | repostLast hpc hmore => rcases hwaiting with hw | hw <;> cases hw.symm.trans hpc
  | complete hpending =>
      rw [h.pending] at hpending
      cases hpending

end Endpoint

/-! ### Runs -/

namespace State

/-- No buffer of either endpoint is used for sending and receiving at once. -/
def Exclusive (s : State) : Prop := ∀ p, (s.endpoint p).Exclusive

/-- Both endpoints are as they were connected, and nothing is on the wire. -/
def Untouched (x : Calls) (s : State) : Prop :=
  (∀ p, (s.endpoint p).Untouched (x.config p)) ∧ ∀ p, s.wire p = []

def OneSend (s : State) : Prop := ∀ p, (s.endpoint p).OneSend

end State

/-- The step is an `AllocateBuffer` on a pool that is not empty. -/
def Calls.Allocates (x : Calls) (a : Side × Action) : Prop :=
  a.2 = .alloc ∧ 0 < (x.config a.1).bufferCount

variable {x : Calls} {s t : State} {a : Side × Action}

theorem forall_update {P : Endpoint → Prop} {f : Side → Endpoint} {p : Side} {e : Endpoint}
    (he : P e) (h : ∀ q, P (f q)) (q : Side) : P (Function.update f p e q) := by
  rcases eq_or_ne q p with rfl | hne
  · rwa [Function.update_self]
  · rw [Function.update_of_ne hne]
    exact h q

theorem State.OneSend.step (h : s.OneSend) (hstep : Step x s a t) : t.OneSend := by
  cases hstep with
  | @own _ p a e hstep => exact forall_update ((h p).step hstep) h
  | @transmit _ p w sendQueue hqueue => exact forall_update ((h p).of_eq rfl rfl) h
  | @deliver _ p msg wire id recvQueue hwire hqueue hfit =>
      exact forall_update ((h p).of_eq rfl rfl) h

theorem State.Untouched.exclusive (h : s.Untouched x) : s.Exclusive := fun p => (h.1 p).exclusive

theorem State.Untouched.step (h : s.Untouched x) (hstep : Step x s a t) :
    (x.Allocates a ∧ ¬ t.Exclusive) ∨ (¬ x.Allocates a ∧ t.Untouched x) := by
  cases hstep with
  | @own _ p a e hstep =>
      rcases (h.1 p).step hstep with ⟨halloc, hbreak⟩ | ⟨halloc, hnext⟩
      · refine .inl ⟨halloc, fun hexcl => hbreak ?_⟩
        have hp : (Function.update s.endpoint p e p).Exclusive := hexcl p
        rwa [Function.update_self] at hp
      · refine .inr ⟨halloc, fun q => ?_, h.2⟩
        show (Function.update s.endpoint p e q).Untouched (x.config q)
        rcases eq_or_ne q p with rfl | hne
        · rwa [Function.update_self]
        · rw [Function.update_of_ne hne]
          exact h.1 q
  | @transmit _ p w sendQueue hqueue =>
      rw [(h.1 p).sendQueue] at hqueue
      cases hqueue
  | @deliver _ p msg wire id recvQueue hwire hqueue hfit =>
      rw [h.2 p.peer] at hwire
      cases hwire

theorem State.untouched_connected (x : Calls) (mem : Side → Mem ℕ UInt8) :
    (State.connected x mem).Untouched x :=
  ⟨fun _ => ⟨rfl, fun _ => rfl, rfl, rfl, rfl, rfl, .inl rfl⟩, fun _ => rfl⟩

theorem State.oneSend_connected (x : Calls) (mem : Side → Mem ℕ UInt8) :
    (State.connected x mem).OneSend :=
  fun _ => .of_free (fun _ => rfl) rfl

/-- **The pool is used exclusively in every state of a run if and only if** no step of
it is an `AllocateBuffer` on a pool that is not empty. -/
theorem pool_exclusive_iff (x : Calls) (mem : Side → Mem ℕ UInt8) (l : List (Side × Action))
    (t : State) :
    (Lts.Run (Step x) (fun s _ => s.Exclusive) (.connected x mem) l t ∧ t.Exclusive)
      ↔ Lts.Run (Step x) (fun _ a => ¬ x.Allocates a) (.connected x mem) l t := by
  refine Lts.Run.keeps_iff (T := Step x) (I := State.Untouched x) (J := State.Exclusive)
    (P := fun _ a => ¬ x.Allocates a) ?_ ?_ (State.untouched_connected x mem)
    (State.untouched_connected x mem).exclusive
  · intro s a t h hstep hexcl
    exact (h.step hstep).elim (fun hbreak => absurd hexcl hbreak.2) fun hnext => hnext.2
  · intro s a t h _ hstep
    rcases h.step hstep with ⟨halloc, hbreak⟩ | ⟨halloc, hnext⟩
    · exact iff_of_false hbreak (not_not.mpr halloc)
    · exact iff_of_true hnext.exclusive halloc

/-- With the default configuration the first `Send` after `Connect` allocates a
buffer for which a receive is posted. -/
theorem first_send_not_exclusive :
    ∃ t, Lts.Run (Step ⟨fun _ => .default, fun _ _ => [1], fun _ _ => 1⟩) (fun _ _ => True)
        (.connected ⟨fun _ => .default, fun _ _ => [1], fun _ _ => 1⟩ fun _ _ _ => 0)
        [(.connecting, .startSend), (.connecting, .alloc)] t ∧
      (t.endpoint .connecting).inUse 0 = true ∧ 0 ∈ (t.endpoint .connecting).recvQueue ∧
      ¬ t.Exclusive := by
  refine ⟨_, .cons (.own (.startSend rfl)) trivial (.cons (.own (.alloc rfl rfl)) trivial
    (.nil _)), rfl, ?_, ?_⟩
  · decide
  · intro h
    exact (h .connecting 0 rfl).1 (by decide)

end MiniCcl.TransportRdma
