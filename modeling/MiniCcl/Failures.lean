/-
MiniCcl/Failures.lean

Which failed transfers the collectives report.

Every collective of the full mesh is careful, and so is every collective of the
ring but one.  `AllReduce` on a ring of three or more ranks sends in a thread of
its own and never looks at the result of that `Send`: it returns `true` whenever
all its `Recv`s succeed.  `failures_reported_iff` says under which patterns of
outcomes that hides a failure.
-/
import MiniCcl.FullMesh
import MiniCcl.Outcome
import MiniCcl.Ring

namespace MiniCcl

variable {α : Type*}

open Prog

theorem careful_withTransport {comm : Communicator} {peer : ℕ} {k : ℕ → RankProg α}
    (h : ∀ transport, (k transport).Careful) : (withTransport comm peer k).Careful := by
  unfold withTransport
  split
  · exact h _
  · exact careful_ret false

/-! ### The full mesh -/

namespace TopologyFullMesh

theorem careful_swap {rank peer : ℕ} {s d : Slice Buf} {typeSize : ℕ} :
    (swap rank peer s d typeSize : RankProg α).Careful := by
  unfold swap
  split_ifs
  · exact careful_send.andThen careful_recv
  · exact careful_recv.andThen careful_send

section Careful

variable {n r : ℕ} {comm : Communicator} {sendBuf recvBuf : Buf} {count : ℕ}
  {dtype : DataType} {red : Reducer α} {root : ℕ}

theorem careful_broadcast {buffer : Buf} :
    (broadcast n r comm buffer count dtype root : RankProg α).Careful := by
  unfold broadcast
  dsimp only
  split_ifs
  · exact (careful_all _).andThen (careful_ret _)
  · exact careful_withTransport fun _ => careful_recv

theorem careful_gather :
    (gather n r comm sendBuf recvBuf count dtype root : RankProg α).Careful := by
  unfold gather
  dsimp only
  split_ifs
  · exact Careful.act (careful_forEach fun _ _ => careful_withTransport fun _ => careful_recv) _
  · exact careful_withTransport fun _ => careful_send

theorem careful_scatter :
    (scatter n r comm sendBuf recvBuf count dtype root : RankProg α).Careful := by
  unfold scatter
  dsimp only
  split_ifs
  · exact Careful.act (careful_forEach fun _ _ => careful_withTransport fun _ => careful_send) _
  · exact careful_withTransport fun _ => careful_recv

theorem careful_reduce :
    (reduce n r comm sendBuf recvBuf count dtype red root).Careful := by
  unfold reduce
  dsimp only
  split_ifs
  · exact Careful.act (careful_forEach fun _ _ => careful_withTransport fun _ =>
      careful_recv.andThen (careful_doAct _)) _
  · exact careful_withTransport fun _ => careful_send

theorem careful_allGather :
    (allGather n r comm sendBuf recvBuf count dtype : RankProg α).Careful :=
  Careful.act (careful_forEach fun _ _ => careful_withTransport fun _ => careful_swap) _

theorem careful_reduceScatter :
    (reduceScatter n r comm sendBuf recvBuf count dtype red).Careful := by
  refine Careful.act (Careful.andThen (careful_forEach fun mask _ => ?_) (careful_doAct _)) _
  dsimp only
  split_ifs
  · exact careful_withTransport fun _ => careful_swap.andThen
      (careful_forEach fun _ _ => careful_doAct _)
  · exact careful_ret true

theorem careful_allReduce :
    (allReduce n r comm sendBuf recvBuf count dtype red).Careful := by
  refine Careful.act (careful_forEach fun mask _ => ?_) _
  dsimp only
  split_ifs
  · exact careful_withTransport fun _ => careful_swap.andThen (careful_doAct _)
  · exact careful_ret true

theorem careful_allToAll :
    (allToAll n r comm sendBuf recvBuf count dtype : RankProg α).Careful :=
  Careful.act (careful_forEach fun _ _ => careful_withTransport fun _ => careful_swap) _

theorem careful_barrier : (barrier n r comm : RankProg α).Careful := by
  unfold barrier
  dsimp only
  split_ifs
  · exact Careful.andThen
      (careful_forEach fun _ _ => careful_withTransport fun _ => careful_recv)
      (careful_forEach fun _ _ => careful_withTransport fun _ => careful_send)
  · exact careful_withTransport fun _ => careful_send.andThen careful_recv

/-- Every collective of the full mesh reports every failed transfer. -/
theorem careful_call (c : Call α) : (call n r comm c).Careful := by
  cases c with
  | broadcast buffer count dtype root => exact careful_broadcast
  | gather sendBuf recvBuf count dtype root => exact careful_gather
  | scatter sendBuf recvBuf count dtype root => exact careful_scatter
  | reduce sendBuf recvBuf count dtype red root => exact careful_reduce
  | allGather sendBuf recvBuf count dtype => exact careful_allGather
  | reduceScatter sendBuf recvBuf count dtype red => exact careful_reduceScatter
  | allReduce sendBuf recvBuf count dtype red => exact careful_allReduce
  | allToAll sendBuf recvBuf count dtype => exact careful_allToAll
  | barrier => exact careful_barrier

end Careful

end TopologyFullMesh

/-! ### The ring -/

namespace TopologyRing

theorem withRing_of_mem {n r : ℕ} {comm : Communicator}
    (hprev : getPrevRank n r ∈ comm.transports) (hnext : getNextRank n r ∈ comm.transports)
    (k : ℕ → ℕ → RankProg α) :
    withRing n r comm k = k (getPrevRank n r) (getNextRank n r) := by
  simp [withRing, Communicator.getTransport_of_mem hprev, Communicator.getTransport_of_mem hnext]

theorem withRing_of_not_mem {n r : ℕ} {comm : Communicator}
    (h : ¬ (getPrevRank n r ∈ comm.transports ∧ getNextRank n r ∈ comm.transports))
    (k : ℕ → ℕ → RankProg α) : withRing n r comm k = ret false := by
  unfold withRing Communicator.getTransport
  split_ifs with hprev hnext
  · exact absurd ⟨hprev, hnext⟩ h
  · rfl
  · rfl
  · rfl

theorem careful_withRing {n r : ℕ} {comm : Communicator} {k : ℕ → ℕ → RankProg α}
    (h : ∀ prev next, (k prev next).Careful) : (withRing n r comm k).Careful := by
  unfold withRing
  split
  · exact h _ _
  · exact careful_ret false

section Careful

variable {n r : ℕ} {comm : Communicator} {sendBuf recvBuf : Buf} {count : ℕ}
  {dtype : DataType} {red : Reducer α} {root : ℕ}

theorem careful_broadcast {buffer : Buf} :
    (broadcast n r comm buffer count dtype root : RankProg α).Careful := by
  refine careful_withRing fun prev next => ?_
  dsimp only
  split_ifs
  · exact careful_send
  · exact careful_ret true
  · exact careful_recv.andThen careful_send
  · exact careful_recv.andThen (careful_ret true)

theorem careful_gather :
    (gather n r comm sendBuf recvBuf count dtype root : RankProg α).Careful := by
  refine careful_withRing fun prev next => ?_
  dsimp only
  split_ifs
  · exact Careful.act (careful_recv.andThen (careful_forEach fun _ _ => careful_doAct _)) _
  · exact Careful.act (careful_recv.andThen careful_send) _
  · exact Careful.act ((careful_ret true).andThen careful_send) _

theorem careful_scatter :
    (scatter n r comm sendBuf recvBuf count dtype root : RankProg α).Careful := by
  refine careful_withRing fun prev next => ?_
  split_ifs
  · exact Careful.act (careful_forEach fun _ _ => careful_send) _
  · exact careful_recv.andThen (careful_forEach fun _ _ => careful_recv.andThen careful_send)

theorem careful_reduce :
    (reduce n r comm sendBuf recvBuf count dtype red root).Careful := by
  refine careful_withRing fun prev next => ?_
  dsimp only
  split_ifs
  · exact Careful.act (careful_recv.andThen (careful_doAct _)) _
  · exact Careful.act ((careful_recv.andThen (careful_doAct _)).andThen careful_send) _
  · exact Careful.act ((careful_ret true).andThen careful_send) _

theorem careful_allGather :
    (allGather n r comm sendBuf recvBuf count dtype : RankProg α).Careful := by
  refine careful_withRing fun prev next => Careful.act (careful_forEach fun step _ => ?_) _
  dsimp only
  split_ifs
  · exact careful_send.andThen careful_recv
  · exact careful_recv.andThen careful_send

theorem careful_reduceScatter :
    (reduceScatter n r comm sendBuf recvBuf count dtype red).Careful :=
  careful_reduce.andThen careful_scatter

theorem careful_allReduceTwoRanks :
    (allReduceTwoRanks r comm sendBuf recvBuf count dtype red).Careful := by
  refine careful_withTransport fun peer => ?_
  dsimp only
  split_ifs
  · exact Careful.act ((careful_send.andThen careful_recv).andThen (careful_doAct _)) _
  · exact Careful.act ((careful_recv.andThen careful_send).andThen (careful_doAct _)) _

theorem careful_allToAll :
    (allToAll n r comm sendBuf recvBuf count dtype : RankProg α).Careful :=
  Careful.act (careful_forEach fun _ _ =>
    Careful.act (careful_broadcast.andThen (careful_doAct _)) _) _

theorem careful_barrierRound {prev next : ℕ} : (barrierRound r prev next : RankProg α).Careful := by
  unfold barrierRound
  dsimp only
  split_ifs
  · exact careful_send.andThen careful_recv
  · exact careful_recv.andThen careful_send

theorem careful_barrier : (barrier n r comm : RankProg α).Careful :=
  careful_withRing fun _ _ => careful_barrierRound.andThen careful_barrierRound

theorem checksSecond_sendThread (next prev typeSize : ℕ) (s d : Slice Buf) :
    (sendThread next s prev d typeSize : RankProg α).ChecksSecond 1 := by
  constructor
  · intro o k
    show o (k + 1) = true ↔ _
    constructor
    · intro h j hj
      obtain rfl : j = 0 := by omega
      exact h
    · intro h
      exact h 0 one_pos
  · intro o k _
    rfl

end Careful

/-- The two phases of `AllReduce` make `2 * (n - 1)` pairs of a `Send` and a
`Recv`, and look at the `Recv`s. -/
theorem checksSecond_phases (n r : ℕ) (recvBuf : Buf) (count : ℕ) (dtype : DataType)
    (red : Reducer α) (prev next : ℕ) :
    ((allReduceReduceScatter n r recvBuf count dtype red prev next).andThen
      (allReduceAllGather n r recvBuf count dtype prev next)).ChecksSecond (2 * (n - 1)) := by
  have hscatter : (allReduceReduceScatter n r recvBuf count dtype red prev next).ChecksSecond
      (List.range (n - 1)).length :=
    ChecksSecond.forEach fun _ => (checksSecond_sendThread ..).andThen (.act .ret _)
  have hgather : (allReduceAllGather n r recvBuf count dtype prev next : RankProg α).ChecksSecond
      (List.range (n - 1)).length :=
    ChecksSecond.forEach fun _ => checksSecond_sendThread ..
  have hboth := hscatter.andThen hgather
  rwa [List.length_range, ← Nat.two_mul] at hboth

/-- What hides a failure: a call of `AllReduce` on a ring of three or more ranks
in which every `Recv` (the transfers of odd number) succeeds and some `Send` (of
even number) does not. -/
def SendDropped (n r : ℕ) (comm : Communicator) (o : ℕ → Bool) : Call α → Prop
  | .allReduce .. => 3 ≤ n ∧
      (getPrevRank n r ∈ comm.transports ∧ getNextRank n r ∈ comm.transports) ∧
      (∀ j < 2 * (n - 1), o (2 * j + 1) = true) ∧ ∃ j < 2 * (n - 1), o (2 * j) = false
  | _ => False

theorem allReduce_reports_iff (n r : ℕ) (comm : Communicator) (sendBuf recvBuf : Buf)
    (count : ℕ) (dtype : DataType) (red : Reducer α) (o : ℕ → Bool) :
    (allReduce n r comm sendBuf recvBuf count dtype red).Reports o 0 ↔ ¬ (3 ≤ n ∧
      (getPrevRank n r ∈ comm.transports ∧ getNextRank n r ∈ comm.transports) ∧
      (∀ j < 2 * (n - 1), o (2 * j + 1) = true) ∧ ∃ j < 2 * (n - 1), o (2 * j) = false) := by
  rw [allReduce]
  by_cases htwo : n = 2
  · rw [if_pos htwo]
    exact iff_of_true (careful_allReduceTwoRanks o 0) fun h => by omega
  · rw [if_neg htwo]
    by_cases hring : getPrevRank n r ∈ comm.transports ∧ getNextRank n r ∈ comm.transports
    · have hphases := (checksSecond_phases n r recvBuf count dtype red (getPrevRank n r)
        (getNextRank n r)).act fun m => m.copy recvBuf 0 sendBuf 0 count
      rw [withRing_of_mem hring.1 hring.2, hphases.reports_iff, not_iff_not]
      constructor
      · rintro ⟨hrecv, j, hj, hfail⟩
        exact ⟨by omega, hring, hrecv, j, hj, hfail⟩
      · rintro ⟨-, -, hdropped⟩
        exact hdropped
    · rw [withRing_of_not_mem hring]
      exact iff_of_true (careful_ret false o 0) fun h => hring h.2.1

/-- A collective of the ring reports all failures unless it drops a failed
`Send` of `AllReduce`. -/
theorem call_reports_iff (n r : ℕ) (comm : Communicator) (c : Call α) (o : ℕ → Bool) :
    (call n r comm c).Reports o 0 ↔ ¬ SendDropped n r comm o c := by
  cases c with
  | broadcast buffer count dtype root => exact iff_of_true (careful_broadcast o 0) id
  | gather sendBuf recvBuf count dtype root => exact iff_of_true (careful_gather o 0) id
  | scatter sendBuf recvBuf count dtype root => exact iff_of_true (careful_scatter o 0) id
  | reduce sendBuf recvBuf count dtype red root => exact iff_of_true (careful_reduce o 0) id
  | allGather sendBuf recvBuf count dtype => exact iff_of_true (careful_allGather o 0) id
  | reduceScatter sendBuf recvBuf count dtype red =>
      exact iff_of_true (careful_reduceScatter o 0) id
  | allReduce sendBuf recvBuf count dtype red => exact allReduce_reports_iff ..
  | allToAll sendBuf recvBuf count dtype => exact iff_of_true (careful_allToAll o 0) id
  | barrier => exact iff_of_true (careful_barrier o 0) id

end TopologyRing

/-- **Which failures are reported**, for every collective, rank, root, count,
communicator and pattern of outcomes. -/
theorem failures_reported_iff (n r : ℕ) (comm : Communicator) (c : Call α) (o : ℕ → Bool) :
    (TopologyFullMesh.call n r comm c).Reports o 0 ∧
      ((TopologyRing.call n r comm c).Reports o 0 ↔ ¬ TopologyRing.SendDropped n r comm o c) :=
  ⟨TopologyFullMesh.careful_call c o 0, TopologyRing.call_reports_iff n r comm c o⟩

/-- Rank 0 of three: the first `Send` fails and `AllReduce` returns `true`. -/
theorem failed_send_not_reported :
    let p : RankProg (BitVec 32) :=
      TopologyRing.call 3 0 ⟨[1, 2]⟩ (.allReduce id id 4 .int32 (.performReduce .sum 3))
    let o : ℕ → Bool := fun k => decide (k ≠ 0)
    p.returns o 0 = true ∧ (⟨.send, 1, ⟨.user 0, 0, 2⟩, 4⟩, false) ∈ p.log o 0 ∧
      ¬ p.Reports o 0 := by
  intro p o
  have hret : p.returns o 0 = true := by decide
  have hlog : (⟨.send, 1, ⟨.user 0, 0, 2⟩, 4⟩, false) ∈ p.log o 0 := by decide
  refine ⟨hret, hlog, ?_⟩
  intro h
  have hfail := h hret _ hlog
  cases hfail

end MiniCcl
