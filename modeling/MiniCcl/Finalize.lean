/-
MiniCcl/Finalize.lean

From `Init` over a session to `Finalize`, which each rank calls when it has made its calls.

A rank does not wait for the others before it closes its TCP connections.  That could go
wrong in two ways.  A peer that still sends to it gets an error, or the signal that ends the
process, and one that still receives from it gets the end of the stream too early.  And if
something has come for it that it has not read, the system resets the connection, and the
peer loses what it has not read yet.  The model has all of this, for the data of the session
and for the rank numbers of `InitTransports`.

None of it happens (`finalize_unnoticed`).  A rank that has returned from its calls has
received everything that is sent to it, so its peers have nothing left to send, and they
find in their streams what they still need.  The last rank may be in the middle of its
session when the first one is gone, and the results are the same (`finalize_completes`).
-/
import MiniCcl.Departure
import MiniCcl.Startup

namespace MiniCcl.Finalize

open Function
open CommunicatorInit (Config view)
open InitTransports (Endpoint endOf)

variable {α : Type*}

/-! ### The system -/

/-- Where a rank is in `Finalize`; `rest` are the peers whose transports it has yet to
close. -/
inductive Phase
  | notCalled
  | closing (rest : List ℕ)
  | returned
  deriving DecidableEq, Repr

/-- The peers that are still to come in the loop. -/
def Phase.rest : Phase → List ℕ
  | closing rest => rest
  | _ => []

structure State (α : Type*) where
  /-- `Init` and the session. -/
  run : CommunicatorInit.State α
  phase : ℕ → Phase
  /-- The ends that have been closed. -/
  closed : Endpoint → Bool
  /-- A `send` or a `recv` of the rank has failed. -/
  failed : ℕ → Bool

namespace State

def init (C : Config α) : State α where
  run := .init C
  phase _ := .notCalled
  closed _ := false
  failed _ := false

def fail (s : State α) (r : ℕ) : State α := { s with failed := update s.failed r true }

/-- Everything that is on the way to the end has been read. -/
def ReadUp (s : State α) (e : Endpoint) : Bool :=
  (s.run.data e.other).isEmpty && (s.run.links.stream e.other).isEmpty

/-- What is on the way between the two ends is lost. -/
def reset (s : State α) (e : Endpoint) : State α :=
  { s with
    run := { s.run with
      data := update (update s.run.data e []) e.other []
      links := { s.run.links with
        stream := update (update s.run.links.stream e []) e.other [] } } }

/-- `TransportTCP::Close` at an end.  The peer can still read what was sent to it, unless
the connection is reset. -/
def close (s : State α) (e : Endpoint) : State α :=
  { (if s.ReadUp e then s else s.reset e) with closed := update s.closed e true }

end State

inductive Action
  | run (a : CommunicatorInit.Action)
  | fail (r : ℕ)
  | finalize (r : ℕ)
  | close (r peer : ℕ)
  | clear (r : ℕ)
  deriving DecidableEq, Repr

inductive Step (C : Config α) : Lts (State α) Action
  -- also a `send` that the peer will never read
  | run {s : State α} {a : CommunicatorInit.Action} {x : CommunicatorInit.State α}
      (h : CommunicatorInit.Step C s.run a x) : Step C s (.run a) { s with run := x }
  | sendFail {s : State α} {i j : ℕ} {op : Xfer ℕ Buf} {e : Endpoint}
      (h : (s.run.node i).find (.send, j) = some op)
      (hget : s.run.links.transports (i, j) = some e) (hclosed : s.closed e.other = true)
      (hlen : 0 < op.slice.len) : Step C s (.fail i) (s.fail i)
  | recvFail {s : State α} {i j : ℕ} {op : Xfer ℕ Buf} {e : Endpoint}
      (h : (s.run.node j).find (.recv, i) = some op)
      (hget : s.run.links.transports (j, i) = some e) (hclosed : s.closed e.other = true)
      (hlen : (s.run.data e.other).length < op.slice.len) : Step C s (.fail j) (s.fail j)
  | sendRankFail {s : State α} {r peer : ℕ} {rest : List ℕ} {e : Endpoint}
      (h : s.run.links.phase r = .announcing (peer :: rest))
      (hget : s.run.links.transports (r, peer) = some e) (hclosed : s.closed e.other = true) :
      Step C s (.fail r) (s.fail r)
  | recvRankFail {s : State α} {r i connector : ℕ}
      (h : s.run.links.acceptThread (r, i) = .accepted connector)
      (hclosed : s.closed ⟨⟨connector, r⟩, .connector⟩ = true)
      (hstream : s.run.links.stream ⟨⟨connector, r⟩, .connector⟩ = []) :
      Step C s (.fail r) (s.fail r)
  -- after its last call
  | finalize {s : State α} {r : ℕ} (hentered : s.run.entered r = true)
      (h : (s.run.node r).Finished) (hphase : s.phase r = .notCalled) :
      Step C s (.finalize r)
        { s with phase := update s.phase r (.closing (s.run.communicator C r).transports) }
  | close {s : State α} {r peer : ℕ} {rest : List ℕ} {e : Endpoint}
      (h : s.phase r = .closing (peer :: rest))
      (hget : s.run.links.transports (r, peer) = some e) :
      Step C s (.close r peer) { s.close e with phase := update s.phase r (.closing rest) }
  | clear {s : State α} {r : ℕ} (h : s.phase r = .closing []) :
      Step C s (.clear r) { s with phase := update s.phase r .returned }

/-- The rank has returned from its calls. -/
def Done (s : CommunicatorInit.State α) (r : ℕ) : Prop :=
  s.entered r = true ∧ (s.node r).Finished

/-! ### A rank that has returned from its calls -/

section Done

variable {C : Config α} (hC : C.Valid) {x y : CommunicatorInit.State α} {r p : ℕ}

theorem Done.finished (h : Done x r) : ((view C x).node r).Finished := by
  rw [CommunicatorInit.view_of_entered h.1]
  exact h.2

include hC

/-- It stays so. -/
theorem Done.step (h : Done x r) (hinv : CommunicatorInit.Inv C x) {a : CommunicatorInit.Action}
    (hstep : CommunicatorInit.Step C x a y) : Done y r := by
  have hsame (hentered : y.entered r = true) (hview : (view C y).node r = (view C x).node r) :
      Done y r := by
    rw [CommunicatorInit.view_of_entered hentered] at hview
    exact ⟨hentered, hview.symm ▸ h.finished⟩
  cases (hinv.effect hC hstep).1 with
  | boot hb hlinks hentered hview =>
      exact hsame (hentered ▸ h.1) (congrArg (fun v => v.node r) hview)
  | links hl hboot hentered hview =>
      exact hsame (hentered ▸ h.1) (congrArg (fun v => v.node r) hview)
  | @enter q hq hreturned hnew hboot hlinks hentered hview =>
      have hqr : r ≠ q := by
        rintro rfl
        rw [h.1] at hnew
        cases hnew
      refine hsame ?_ (congrArg (fun v => v.node r) hview)
      rw [hentered, update_of_ne hqr]
      exact h.1
  | net hb hboot hlinks hentered =>
      exact hsame (hentered ▸ h.1) (Fifo.frozen (.single ⟨_, hb⟩) h.finished)

variable (hinv : CommunicatorInit.Inv C x)
include hinv

/-- Nothing of the session is on the way to it. -/
theorem data_eq_nil (h : Done x r) (p : ℕ) : x.data (endOf p r) = [] :=
  (C.topology.schedule_operations hC.two_le hC.ops).chan_eq_nil_of_finished hinv.net
    h.finished p

/-- It has received the ranks of its peers. -/
theorem stream_eq_nil (h : Done x r) (hp : p ∈ C.topology.getNeighbors C.worldSize r) :
    x.links.stream (endOf p r) = [] :=
  (InitTransports.transports_of_returned hC.two_le hinv.links (hinv.entered r h.1).1
    (hinv.entered r h.1).2 hp).2

/-- An entry of the map of a rank that makes its calls. -/
theorem other_eq (h : x.entered r = true) {e : Endpoint}
    (hget : x.links.transports (r, p) = some e) :
    p ∈ C.topology.getNeighbors C.worldSize r ∧ e = endOf r p ∧ e.other = endOf p r := by
  have hpaired := InitTransports.paired_peers C.topology hC.two_le
  have hp := (InitTransports.isSome_transports hC.two_le hinv.links (hinv.entered r h).1
    (hinv.entered r h).2).mp (by rw [hget]; rfl)
  obtain rfl := (InitTransports.inv_of_reaches hpaired hinv.links).eq_endOf hpaired hget
  have hne := (TopologyType.getNeighbors_wf hC.two_le (hinv.entered r h).1 hp).2
  exact ⟨hp, rfl, InitTransports.other_endOf hne.symm⟩

/-- Nobody has yet to send its rank to it. -/
theorem not_announcing (h : Done x p) {rest : List ℕ}
    (hphase : x.links.phase r = .announcing (p :: rest)) : False := by
  have hpaired := InitTransports.paired_peers C.topology hC.two_le
  have hlinks := InitTransports.inv_of_reaches hpaired hinv.links
  have hconnect : p ∈ C.peers.connect r :=
    (hlinks.phases.announcing r _ hphase).subset List.mem_cons_self
  have hr := hlinks.phases.lt r (by rw [hphase]; exact InitTransports.Phase.noConfusion)
  have hreturned := (hinv.entered p h.1).2
  obtain ⟨i, hi⟩ := hlinks.exists_returned hpaired (by rw [hreturned]; trivial)
    (hpaired.accept_of_connect hr hconnect)
  have hnot : ¬ (x.links.phase r).Announced p := by
    rw [hphase]
    exact fun hmem => hmem List.mem_cons_self
  exact (hlinks.messages.unsent r p hconnect hnot).2 i (.inr ⟨r, hi⟩)

/-- Its own rank has been sent. -/
theorem stream_ne_nil (h : Done x p) {i : ℕ}
    (hthread : x.links.acceptThread (r, i) = .accepted p) :
    x.links.stream ⟨⟨p, r⟩, .connector⟩ ≠ [] := by
  have hpaired := InitTransports.paired_peers C.topology hC.two_le
  have hlinks := InitTransports.inv_of_reaches hpaired hinv.links
  have hconn : (x.links.acceptThread (r, i)).conn? = some p := by
    rw [hthread]
    rfl
  have hannounced : (x.links.phase p).Announced r := by
    rw [(hinv.entered p h.1).2]
    trivial
  have hunread : ∀ j, ¬ (x.links.acceptThread (r, j)).Read p := by
    intro j hread
    -- no other thread has the connection
    have hj : (x.links.acceptThread (r, j)).conn? = some p := by
      rcases hread with ⟨_, hj⟩ | ⟨_, hj⟩
      · rw [hj]
        rfl
      · rw [hj]
        rfl
    obtain rfl := hlinks.held.unique r i j p hconn hj
    rw [hthread] at hread
    rcases hread with ⟨_, hj⟩ | ⟨_, hj⟩
    · cases hj
    · cases hj
  rw [hlinks.messages.sent p r (hlinks.connector_wf hpaired hconn).1 hannounced hunread]
  exact List.cons_ne_nil p []

end Done

/-! ### The invariant -/

/-- What holds in every state of a run. -/
structure Inv (C : Config α) (s : State α) : Prop where
  run : (CommunicatorInit.Step C).Reaches (.init C) s.run
  failed : ∀ r, s.failed r = false
  done : ∀ r, s.phase r ≠ .notCalled → Done s.run r
  rest : ∀ r, ∀ p ∈ (s.phase r).rest, p ∈ C.topology.getNeighbors C.worldSize r
  closed : ∀ e, s.closed e = true → ∃ r p, e = endOf r p ∧ s.phase r ≠ .notCalled
  opened : ∀ r, s.phase r ≠ .notCalled → ∀ p ∈ C.topology.getNeighbors C.worldSize r,
    p ∈ (s.phase r).rest ∨ s.closed (endOf r p) = true

section Step

variable {C : Config α} {s t : State α} {a : Action} {r p : ℕ}

theorem inv_init : Inv C (State.init C) where
  run := .refl
  failed _ := rfl
  done _ h := absurd rfl h
  rest _ _ h := absurd h List.not_mem_nil
  closed _ h := Bool.noConfusion h
  opened _ h := absurd rfl h

variable (hC : C.Valid) (h : Inv C s)
include h

/-- The owner of an end that has been closed. -/
theorem Inv.done_of_closed {r p : ℕ} (hclosed : s.closed (endOf r p) = true) : Done s.run r := by
  obtain ⟨r', p', heq, hphase⟩ := h.closed _ hclosed
  obtain ⟨rfl, rfl⟩ := InitTransports.endOf_inj.mp heq
  exact h.done _ hphase

/-- A rank goes on in `Finalize`, and the ends in `closed` are closed. -/
theorem Inv.setPhase {v : Phase} {closed : Endpoint → Bool} (hv : v ≠ .notCalled)
    (hdone : Done s.run r) (hrest : ∀ p ∈ v.rest, p ∈ C.topology.getNeighbors C.worldSize r)
    (hkeep : ∀ e, s.closed e = true → closed e = true)
    (hnew : ∀ e, closed e = true → s.closed e = true ∨ ∃ p, e = endOf r p)
    (hopened : ∀ p ∈ C.topology.getNeighbors C.worldSize r,
      p ∈ v.rest ∨ closed (endOf r p) = true) :
    Inv C { s with phase := update s.phase r v, closed := closed } where
  run := h.run
  failed := h.failed
  done := (forall_update_iff s.phase fun q v => v ≠ .notCalled → Done s.run q).mpr
    ⟨fun _ => hdone, fun q _ => h.done q⟩
  rest := (forall_update_iff s.phase fun q v =>
      ∀ p ∈ v.rest, p ∈ C.topology.getNeighbors C.worldSize q).mpr ⟨hrest, fun q _ => h.rest q⟩
  closed e he := by
    rcases hnew e he with hold | ⟨p, rfl⟩
    · obtain ⟨q, p, heq, hq⟩ := h.closed e hold
      exact ⟨q, p, heq, (forall_update_iff s.phase fun q v =>
        s.phase q ≠ .notCalled → v ≠ .notCalled).mpr ⟨fun _ => hv, fun q _ hq => hq⟩ q hq⟩
    · refine ⟨r, p, rfl, ?_⟩
      show update s.phase r v r ≠ .notCalled
      rw [update_self]
      exact hv
  opened := (forall_update_iff s.phase fun q v => v ≠ .notCalled →
      ∀ p ∈ C.topology.getNeighbors C.worldSize q, p ∈ v.rest ∨ closed (endOf q p) = true).mpr
    ⟨fun _ => hopened, fun q _ hq p hp => (h.opened q hq p hp).imp_right (hkeep _)⟩

include hC

theorem Inv.base : CommunicatorInit.Inv C s.run := CommunicatorInit.inv_of_reaches hC h.run

theorem Inv.sendFail {i j : ℕ} {op : Xfer ℕ Buf} {e : Endpoint}
    (hop : (s.run.node i).find (.send, j) = some op)
    (hget : s.run.links.transports (i, j) = some e) (hclosed : s.closed e.other = true) :
    op.slice.len = 0 := by
  have hi := (h.base hC).entered_of_find hop
  obtain ⟨-, -, hother⟩ := other_eq hC (h.base hC) hi hget
  rw [hother] at hclosed
  rw [← CommunicatorInit.view_of_entered (C := C) hi] at hop
  exact (C.topology.schedule_operations hC.two_le hC.ops).len_eq_zero_of_finished
    (h.base hC).net (h.done_of_closed hclosed).finished hop

theorem Inv.recvFail {i j : ℕ} {op : Xfer ℕ Buf} {e : Endpoint}
    (hop : (s.run.node j).find (.recv, i) = some op)
    (hget : s.run.links.transports (j, i) = some e) (hclosed : s.closed e.other = true) :
    op.slice.len ≤ (s.run.data e.other).length := by
  have hj := (h.base hC).entered_of_find hop
  obtain ⟨-, -, hother⟩ := other_eq hC (h.base hC) hj hget
  rw [hother] at hclosed ⊢
  rw [← CommunicatorInit.view_of_entered (C := C) hj] at hop
  exact (C.topology.schedule_operations hC.two_le hC.ops).len_le_of_finished
    (h.base hC).net (h.done_of_closed hclosed).finished hop

/-- **A step of the system cannot fail.** -/
theorem Inv.not_fail : ¬ Step C s (.fail r) t := by
  have hpaired := InitTransports.paired_peers C.topology hC.two_le
  have hlinks := InitTransports.inv_of_reaches hpaired (h.base hC).links
  intro hstep
  cases hstep with
  | sendFail hop hget hclosed hlen =>
      exact absurd (h.sendFail hC hop hget hclosed) (Nat.ne_of_gt hlen)
  | recvFail hop hget hclosed hlen =>
      exact absurd (h.recvFail hC hop hget hclosed) (Nat.not_le_of_lt hlen)
  | @sendRankFail _ _ peer rest e hphase hget hclosed =>
      have hconnect : peer ∈ C.peers.connect r :=
        (hlinks.phases.announcing r _ hphase).subset List.mem_cons_self
      have hr := hlinks.phases.lt r (by rw [hphase]; exact InitTransports.Phase.noConfusion)
      have hlt := (hpaired.connect_lt hr hconnect).1
      obtain rfl := hlinks.eq_endOf hpaired hget
      rw [InitTransports.other_endOf hlt.ne] at hclosed
      exact not_announcing hC (h.base hC) (h.done_of_closed hclosed) hphase
  | @recvRankFail _ _ i connector hthread hclosed hstream =>
      have hconn : (s.run.links.acceptThread (r, i)).conn? = some connector := by
        rw [hthread]
        rfl
      have hlt := (hlinks.connector_wf hpaired hconn).2.2
      rw [← InitTransports.endOf_of_lt hlt] at hclosed
      exact stream_ne_nil hC (h.base hC) (h.done_of_closed hclosed) hthread hstream

/-- Nothing is unread at the ends of a rank that has returned from its calls. -/
theorem Inv.unread_eq_nil (hdone : Done s.run r) {e : Endpoint}
    (hget : s.run.links.transports (r, p) = some e) :
    s.run.data e.other = [] ∧ s.run.links.stream e.other = [] := by
  obtain ⟨hp, -, hother⟩ := other_eq hC (h.base hC) hdone.1 hget
  rw [hother]
  exact ⟨data_eq_nil hC (h.base hC) hdone p, stream_eq_nil hC (h.base hC) hdone hp⟩

/-- **No connection is reset.** -/
theorem Inv.close_eq (hdone : Done s.run r) {e : Endpoint}
    (hget : s.run.links.transports (r, p) = some e) :
    p ∈ C.topology.getNeighbors C.worldSize r ∧
      s.close e = { s with closed := update s.closed (endOf r p) true } := by
  obtain ⟨hp, rfl, -⟩ := other_eq hC (h.base hC) hdone.1 hget
  obtain ⟨hdata, hstream⟩ := h.unread_eq_nil hC hdone hget
  have hread : s.ReadUp (endOf r p) = true := by
    rw [State.ReadUp, hdata, hstream]
    rfl
  rw [State.close, hread]
  exact ⟨hp, rfl⟩

theorem Inv.step (hstep : Step C s a t) : Inv C t := by
  cases hstep with
  | @run _ a x hrun =>
      exact
        { run := h.run.tail ⟨a, hrun⟩
          failed := h.failed
          done := fun r hr => (h.done r hr).step hC (h.base hC) hrun
          rest := h.rest
          closed := h.closed
          opened := h.opened }
  | sendFail hop hget hclosed hlen =>
      exact (h.not_fail hC (.sendFail hop hget hclosed hlen)).elim
  | recvFail hop hget hclosed hlen =>
      exact (h.not_fail hC (.recvFail hop hget hclosed hlen)).elim
  | sendRankFail hphase hget hclosed =>
      exact (h.not_fail hC (.sendRankFail hphase hget hclosed)).elim
  | recvRankFail hthread hclosed hstream =>
      exact (h.not_fail hC (.recvRankFail hthread hclosed hstream)).elim
  | @finalize _ r hentered hfinished hphase =>
      have hreturned := (h.base hC).entered r hentered
      have hmem : ∀ p, p ∈ (s.run.communicator C r).transports
          ↔ p ∈ C.topology.getNeighbors C.worldSize r := by
        intro p
        refine List.mem_filter.trans ?_
        rw [InitTransports.isSome_transports hC.two_le (h.base hC).links hreturned.1 hreturned.2,
          List.mem_range]
        exact and_iff_right_of_imp fun hp =>
          (TopologyType.getNeighbors_wf hC.two_le hreturned.1 hp).1
      exact h.setPhase Phase.noConfusion ⟨hentered, hfinished⟩ (fun p => (hmem p).mp)
        (fun _ he => he) (fun _ => .inl) fun p hp => .inl ((hmem p).mpr hp)
  | @close _ r peer rest e hphase hget =>
      have hleft : s.phase r ≠ .notCalled := by
        rw [hphase]
        exact Phase.noConfusion
      have hrest := h.rest r
      have hopened := h.opened r hleft
      rw [hphase] at hrest hopened
      rw [(h.close_eq hC (h.done r hleft) hget).2]
      refine h.setPhase Phase.noConfusion (h.done r hleft)
        (fun p hp => hrest p (List.mem_cons_of_mem peer hp)) (fun e he => ?_) (fun e he => ?_)
        fun p hp => ?_
      · show update s.closed (endOf r peer) true e = true
        by_cases heq : e = endOf r peer
        · rw [heq, update_self]
        · rwa [update_of_ne heq]
      · by_cases heq : e = endOf r peer
        · exact .inr ⟨peer, heq⟩
        · exact .inl ((update_of_ne heq true s.closed).symm.trans he)
      · rcases hopened p hp with hmem | hclosed
        · rcases List.mem_cons.mp hmem with rfl | hmem
          · exact .inr (update_self ..)
          · exact .inl hmem
        · by_cases hpp : p = peer
          · rw [hpp]
            exact .inr (update_self ..)
          · have hne : endOf r p ≠ endOf r peer := fun heq =>
              hpp (InitTransports.endOf_inj.mp heq).2
            exact .inr ((update_of_ne hne true s.closed).trans hclosed)
  | @clear _ r hphase =>
      have hleft : s.phase r ≠ .notCalled := by
        rw [hphase]
        exact Phase.noConfusion
      have hopened := h.opened r hleft
      rw [hphase] at hopened
      exact h.setPhase Phase.noConfusion (h.done r hleft) (fun p hp => absurd hp List.not_mem_nil)
        (fun _ he => he) (fun _ => .inl) hopened

omit hC h in
/-- Only the closing of an end changes which ends are closed. -/
theorem Step.closed_eq (hstep : Step C s a t) (ha : ∀ r p, a ≠ .close r p) :
    t.closed = s.closed := by
  cases hstep with
  | close hphase hget => exact absurd rfl (ha _ _)
  | run _ | sendFail _ _ _ _ | recvFail _ _ _ _ | sendRankFail _ _ _ | recvRankFail _ _ _
  | finalize _ _ _ | clear _ => rfl

omit h in
theorem inv_of_reaches (hs : (Step C).Reaches (State.init C) s) : Inv C s := by
  induction hs with
  | refl => exact inv_init
  | tail _ hstep ih =>
      obtain ⟨a, hstep⟩ := hstep
      exact ih.step hC hstep

/-! ### Progress -/

/-- All ranks have returned from `Finalize`. -/
def Finalized (C : Config α) (s : State α) : Prop := ∀ r < C.worldSize, s.phase r = .returned

/-- **No deadlock**: until all ranks have returned from `Finalize`, one of them can go on. -/
theorem Inv.exists_step (hnot : ¬ Finalized C s) : ∃ a t, Step C s a t := by
  by_cases hdone : CommunicatorInit.Completed C s.run
  · rw [Finalized] at hnot
    push Not at hnot
    obtain ⟨r, hr, hphase⟩ := hnot
    cases hrest : s.phase r with
    | notCalled => exact ⟨_, _, .finalize (hdone r hr).1 (hdone r hr).2 hrest⟩
    | returned => exact absurd hrest hphase
    | closing rest =>
        cases rest with
        | nil => exact ⟨_, _, .clear hrest⟩
        | cons p rest =>
            have hp := h.rest r p (by rw [hrest]; exact List.mem_cons_self)
            exact ⟨_, _, .close hrest (InitTransports.transports_of_returned hC.two_le
              (h.base hC).links hr ((h.base hC).entered r (hdone r hr).1).2 hp).1⟩
  · obtain ⟨a, x, hstep⟩ := (h.base hC).exists_step hC hdone
    exact ⟨_, _, .run hstep⟩

/-- The steps of `Finalize` that are left. -/
def Phase.left (worldSize : ℕ) : Phase → ℕ
  | notCalled => worldSize + 2
  | closing rest => rest.length + 1
  | returned => 0

def State.left (C : Config α) (s : State α) : ℕ :=
  CommunicatorInit.remaining C s.run + ∑ r ∈ Finset.range C.worldSize, (s.phase r).left C.worldSize

omit hC h in
theorem left_lt_of_phase {v : Phase} (hr : r < C.worldSize) (hrun : t.run = s.run)
    (hphase : t.phase = update s.phase r v)
    (hlt : v.left C.worldSize < (s.phase r).left C.worldSize) : t.left C < s.left C := by
  rw [State.left, State.left, hrun, hphase]
  exact Nat.add_lt_add_left (InitTransports.sum_update_lt (Finset.mem_range.mpr hr) s.phase
    (fun _ v => v.left C.worldSize) hlt) _

/-- **Every step leaves less to do.** -/
theorem Inv.left_lt (hstep : Step C s a t) : t.left C < s.left C := by
  cases hstep with
  | run hrun => exact Nat.add_lt_add_right ((h.base hC).remaining_lt hC hrun) _
  | sendFail hop hget hclosed hlen =>
      exact (h.not_fail hC (.sendFail hop hget hclosed hlen)).elim
  | recvFail hop hget hclosed hlen =>
      exact (h.not_fail hC (.recvFail hop hget hclosed hlen)).elim
  | sendRankFail hphase hget hclosed =>
      exact (h.not_fail hC (.sendRankFail hphase hget hclosed)).elim
  | recvRankFail hthread hclosed hstream =>
      exact (h.not_fail hC (.recvRankFail hthread hclosed hstream)).elim
  | @finalize _ r hentered hfinished hphase =>
      refine left_lt_of_phase ((h.base hC).entered r hentered).1 rfl rfl ?_
      have hlen : (s.run.communicator C r).transports.length ≤ C.worldSize :=
        (List.length_filter_le _ _).trans (List.length_range).le
      rw [hphase, Phase.left, Phase.left]
      omega
  | @close _ r peer rest e hphase hget =>
      have hdone := h.done r (by rw [hphase]; exact Phase.noConfusion)
      rw [(h.close_eq hC hdone hget).2]
      refine left_lt_of_phase ((h.base hC).entered r hdone.1).1 rfl rfl ?_
      rw [hphase]
      exact Nat.lt_succ_self _
  | @clear _ r hphase =>
      have hdone := h.done r (by rw [hphase]; exact Phase.noConfusion)
      refine left_lt_of_phase ((h.base hC).entered r hdone.1).1 rfl rfl ?_
      rw [hphase]
      exact Nat.zero_lt_one

end Step

/-! ### The results -/

section Results

variable {C : Config α} (hC : C.Valid)
include hC

/-- **Nobody notices that a rank is gone.**  Whatever has happened so far could have happened
without any `Finalize`; no `send` or `recv` has failed, and none can fail next; an end that
is closed next has nothing unread, and nothing is on the way to one that has been closed. -/
theorem finalize_unnoticed {s : State α} (h : (Step C).Reaches (State.init C) s) :
    (CommunicatorInit.Step C).Reaches (.init C) s.run ∧
      (∀ r, s.failed r = false ∧ ∀ t, ¬ Step C s (.fail r) t) ∧
      (∀ r p t, Step C s (.close r p) t → ∃ e, s.run.links.transports (r, p) = some e ∧
        s.run.data e.other = [] ∧ s.run.links.stream e.other = []) ∧
      ∀ r p, s.closed (endOf r p) = true → s.run.data (endOf p r) = [] ∧
        (p ∈ C.topology.getNeighbors C.worldSize r → s.run.links.stream (endOf p r) = []) := by
  have hinv := inv_of_reaches hC h
  refine ⟨hinv.run, fun r => ⟨hinv.failed r, fun t => hinv.not_fail hC⟩, fun r p t hstep => ?_,
    fun r p hclosed => ?_⟩
  · cases hstep with
    | @close _ _ _ rest e hphase hget =>
        have hdone := hinv.done r (by rw [hphase]; exact Phase.noConfusion)
        exact ⟨e, hget, hinv.unread_eq_nil hC hdone hget⟩
  · have hdone := hinv.done_of_closed hclosed
    exact ⟨data_eq_nil hC (hinv.base hC) hdone p, stream_eq_nil hC (hinv.base hC) hdone⟩

theorem exists_finalized {s : State α} (h : (Step C).Reaches (State.init C) s) :
    ∃ rest t, Lts.Run (Step C) (fun _ _ => True) s rest t ∧ Finalized C t := by
  obtain ⟨rest, t, hrest, hstuck⟩ := Lts.Run.exists_stuck (T := Step C) (P := fun _ _ => True)
    (J := Inv C) (f := State.left C)
    (fun hinv hstep _ => ⟨hinv.step hC hstep, hinv.left_lt hC hstep⟩) (inv_of_reaches hC h)
  refine ⟨rest, t, hrest, ?_⟩
  by_contra hnot
  obtain ⟨a, u, hstep⟩ :=
    (inv_of_reaches hC (h.trans hrest.reaches)).exists_step hC hnot
  exact hstuck a u hstep trivial

/-- **From any state of a run all ranks can get through `Finalize`**, and no run is longer
than a bound.  Then every end is closed, all calls have returned what was expected, and if
the operations are well posed, the buffers hold what the session means. -/
theorem finalize_completes : ∃ bound, ∀ l s,
    Lts.Run (Step C) (fun _ _ => True) (State.init C) l s →
      l.length ≤ bound ∧ ∃ rest t, Lts.Run (Step C) (fun _ _ => True) s rest t ∧
        (∀ r < C.worldSize, t.phase r = .returned ∧ (t.run.node r).Returned true ∧
          ∀ p ∈ C.topology.getNeighbors C.worldSize r, t.closed (endOf r p) = true) ∧
        (C.WellPosed → userMem (fun r => (t.run.node r).mem)
          = C.ops.foldl (fun M o => o.meaning C.topology C.worldSize M) (userMem C.mem)) := by
  refine ⟨(State.init C).left C, fun l s hrun => ⟨?_, ?_⟩⟩
  · have hle := hrun.length_add_le (J := Inv C) (f := State.left C)
      (fun hinv hstep _ => ⟨hinv.step hC hstep, hinv.left_lt hC hstep⟩) inv_init
    exact (Nat.le_add_right _ _).trans hle
  · obtain ⟨rest, t, hrest, hfinalized⟩ := exists_finalized hC hrun.reaches
    have hinv := inv_of_reaches hC (hrun.reaches.trans hrest.reaches)
    have hleft : ∀ r < C.worldSize, t.phase r ≠ .notCalled := fun r hr => by
      rw [hfinalized r hr]
      exact Phase.noConfusion
    have hdone : CommunicatorInit.Completed C t.run := fun r hr => hinv.done r (hleft r hr)
    refine ⟨rest, t, hrest, fun r hr => ⟨hfinalized r hr,
      (hinv.base hC).returned_of_completed hC hdone hr, fun p hp => ?_⟩,
      (hinv.base hC).userMem_of_completed hC hdone⟩
    have hopened := hinv.opened r (hleft r hr) p hp
    rw [hfinalized r hr] at hopened
    exact hopened.resolve_left List.not_mem_nil

end Results

/-- The first of three ranks closes its first connection.  No byte is lost, and nothing has
failed. -/
theorem finalize_unnoticed_three : ∃ s r p t, (Step CommunicatorInit.threeRanks).Reaches
    (State.init CommunicatorInit.threeRanks) s ∧ (∀ e, s.closed e = false) ∧
      Step CommunicatorInit.threeRanks s (.close r p) t ∧
      (∃ e, s.run.links.transports (r, p) = some e ∧ s.run.data e.other = [] ∧
        s.run.links.stream e.other = []) ∧ ∀ q, t.failed q = false := by
  have hC := CommunicatorInit.valid_threeRanks
  let closing (s : State (BitVec 32)) : Prop := ∃ e, s.closed e = true
  obtain ⟨_, u, hrun, hfinalized⟩ := exists_finalized hC .refl
  have hend : closing u := by
    have hopened := (inv_of_reaches hC hrun.reaches).opened 0
      (by rw [hfinalized 0 (by decide)]; exact Phase.noConfusion) 1 (by decide)
    rw [hfinalized 0 (by decide)] at hopened
    exact ⟨_, hopened.resolve_left List.not_mem_nil⟩
  obtain ⟨s, a, t, hs, hnot, hstep, e, he⟩ := hrun.reaches.exists_crossing (J := closing)
    (fun h => Bool.noConfusion h.choose_spec) hend
  have hclosed : ∃ r p, a = .close r p := by
    by_contra hno
    push Not at hno
    exact hnot ⟨e, hstep.closed_eq hno ▸ he⟩
  obtain ⟨r, p, rfl⟩ := hclosed
  obtain ⟨-, -, hunread, -⟩ := finalize_unnoticed hC hs
  obtain ⟨-, hfailed, -⟩ := finalize_unnoticed hC (hs.tail ⟨_, hstep⟩)
  refine ⟨s, r, p, t, hs, fun e => ?_, hstep, hunread r p t hstep, fun q => (hfailed q).1⟩
  exact Bool.eq_false_of_not_eq_true fun he => hnot ⟨e, he⟩

/-- Three ranks sum up their rank numbers and are gone. -/
theorem finalize_completes_three : ∃ l t, Lts.Run (Step CommunicatorInit.threeRanks)
    (fun _ _ => True) (State.init CommunicatorInit.threeRanks) l t ∧
      ∀ r < 3, t.phase r = .returned := by
  obtain ⟨_, hall⟩ := finalize_completes CommunicatorInit.valid_threeRanks
  obtain ⟨-, l, t, hrun, hranks, -⟩ := hall [] _ (.nil _)
  exact ⟨l, t, hrun, fun r hr => (hranks r hr).1⟩

end MiniCcl.Finalize
