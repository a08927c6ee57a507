/-
MiniCcl/Sessions.lean

What an application does with a communicator: collective calls and messages, in turn.

All ranks run the same list of operations.  A message is a `Send` at one rank and a `Recv`
at another; where the topology has no link between the two, both calls are refused and
nothing happens.  A rank notes what each call returns.

An operation is valid if its roots and ranks are ranks.  For valid operations
`session_terminates` says that there is one way to go: no run is longer than some bound,
all runs that cannot go on take the same steps, in different orders, and end in the same
state, in which every call has returned what was expected.  If the operations are well
posed too, `session_computes` says what is left in the callers' buffers: the composition
of what the operations mean, whichever order the steps of the ranks came in.
-/
import MiniCcl.MeshMeaning
import MiniCcl.RingMeaning
import MiniCcl.TopologyFactory

namespace MiniCcl

open Prog

/-! ### Calls in turn, with their results -/

section Collect

variable {ι β α γ : Type*}

/-- Calls made one after the other, then `k` with the list of what they returned. -/
def Prog.collect : List (Prog ι β α) → (List Bool → Prog ι β α) → Prog ι β α
  | [], k => k []
  | p :: ps, k => p.bind fun ok => collect ps fun results => k (ok :: results)

theorem Prog.raceFree_collect {ps : List (Prog ι β α)} {k : List Bool → Prog ι β α}
    (hps : ∀ p ∈ ps, p.RaceFree) (hk : ∀ results, (k results).RaceFree) :
    (collect ps k).RaceFree := by
  induction ps generalizing k with
  | nil => exact hk []
  | cons p ps ih =>
      exact (hps p List.mem_cons_self).bind fun ok =>
        ih (fun q hq => hps q (List.mem_cons_of_mem _ hq)) fun results => hk (ok :: results)

variable [DecidableEq ι]

/-- The program takes the actions `l` and returns `ok`. -/
def Prog.Answers (p : Prog ι β α) (l : List (Local ι β α)) (ok : Bool) : Prop :=
  ∀ {g : Bool → Prog ι β α} {l'}, Performs [] (g ok) l' → Performs [] (p.bind g) (l ++ l')

theorem Performs.answers {p : Prog ι β α} {l : List (Local ι β α)} (h : Performs [] p l) :
    p.Answers l true := h.bind

theorem Prog.answers_ret (ok : Bool) : (ret ok : Prog ι β α).Answers [] ok := id

theorem Performs.collect {xs : List γ} {p : γ → Prog ι β α} {l : γ → List (Local ι β α)}
    {ok : γ → Bool} (h : ∀ x ∈ xs, (p x).Answers (l x) (ok x)) {k : List Bool → Prog ι β α}
    (hk : Performs [] (k (xs.map ok)) []) :
    Performs [] (Prog.collect (xs.map p) k) (xs.flatMap l) := by
  induction xs generalizing k with
  | nil => exact hk
  | cons x xs ih =>
      exact h x List.mem_cons_self (ih (fun y hy => h y (List.mem_cons_of_mem x hy)) hk)

end Collect

variable {α : Type*}

/-! ### Point-to-point calls -/

namespace Communicator

/-- `Communicator::Send` -/
def send (comm : Communicator) (rank : ℕ) (sendBuf : Buf) (count : ℕ) (dtype : DataType)
    (dest : ℕ) : RankProg α :=
  if dest = rank then ret false
  else withTransport comm dest fun transport =>
    Prog.send transport ⟨sendBuf, 0, count⟩ (getDataTypeSize dtype)

/-- `Communicator::Recv` -/
def recv (comm : Communicator) (rank : ℕ) (recvBuf : Buf) (count : ℕ) (dtype : DataType)
    (source : ℕ) : RankProg α :=
  if source = rank then ret false
  else withTransport comm source fun transport =>
    Prog.recv transport ⟨recvBuf, 0, count⟩ (getDataTypeSize dtype)

variable {comm : Communicator} {rank peer : ℕ} (buf : Buf) (count : ℕ) (dtype : DataType)

/-- A call for a rank without a transport, or for the own rank, is refused. -/
theorem send_refused (h : peer ∉ comm.transports ∨ peer = rank) :
    (comm.send rank buf count dtype peer : RankProg α) = ret false := by
  rcases h with h | rfl
  · simp [send, withTransport, getTransport, h]
  · exact if_pos rfl

theorem recv_refused (h : peer ∉ comm.transports ∨ peer = rank) :
    (comm.recv rank buf count dtype peer : RankProg α) = ret false := by
  rcases h with h | rfl
  · simp [recv, withTransport, getTransport, h]
  · exact if_pos rfl

theorem raceFree_send : (comm.send rank buf count dtype peer : RankProg α).RaceFree := by
  unfold send withTransport
  repeat' split <;> simp

theorem raceFree_recv : (comm.recv rank buf count dtype peer : RankProg α).RaceFree := by
  unfold recv withTransport
  repeat' split <;> simp

end Communicator

/-! ### Operations -/

/-- Something that all ranks do together: a collective call, or a message from one rank to
another. -/
inductive Operation (α : Type*)
  | collective (c : Call α)
  | message (source dest sendBuf recvBuf count : ℕ) (dtype : DataType)

namespace Operation

variable (topology : TopologyType) (n : ℕ)

/-- The part of rank `r`. -/
def run (r : ℕ) : Operation α → RankProg α
  | collective c => topology.call n r (topology.neighborComm n r) c
  | message source dest sendBuf recvBuf count dtype =>
      if r = source then
        (topology.neighborComm n r).send r (.user sendBuf) count dtype dest
      else if r = dest then
        (topology.neighborComm n r).recv r (.user recvBuf) count dtype source
      else ret true

/-- What the call returns on rank `r`. -/
def accepted (r : ℕ) : Operation α → Bool
  | collective _ => true
  | message source dest _ _ _ _ =>
      decide (r = source ∨ r = dest → dest ∈ topology.getNeighbors n source)

/-- The operation in a possible order. -/
def script : Operation α → Script ℕ Buf α
  | collective c => topology.callScript n c
  | message source dest sendBuf recvBuf count dtype =>
      if dest ∈ topology.getNeighbors n source then
        [.comm source ⟨.user sendBuf, 0, count⟩ dest ⟨.user recvBuf, 0, count⟩
          (getDataTypeSize dtype)]
      else []

/-- The callers' buffers after the operation. -/
def meaning : Operation α → UserMem α → UserMem α
  | collective c, M => c.meaning n M
  | message source dest sendBuf recvBuf count _, M =>
      if dest ∈ topology.getNeighbors n source then
        Function.update M dest (Delivery.apply ⟨recvBuf, count, M source sendBuf⟩ (M dest))
      else M

/-- A root is a rank, and a message is between ranks. -/
def Valid : Operation α → Prop
  | collective c => c.Valid n
  | message source dest _ _ _ _ => source < n ∧ dest < n

/-- The operation can be carried out as it is meant; a message is between ranks. -/
def WellPosed : Operation α → Prop
  | collective c => c.WellPosed topology n
  | message source dest _ _ _ _ => source < n ∧ dest < n

variable {topology : TopologyType} {n : ℕ} {o : Operation α}

theorem WellPosed.valid (ho : o.WellPosed topology n) : o.Valid n := by
  cases o with
  | collective c => exact Call.WellPosed.valid ho
  | message source dest sendBuf recvBuf count dtype => exact ho

theorem valid_of_wellPosed {ops : List (Operation α)} (hops : ∀ o ∈ ops, o.WellPosed topology n) :
    ∀ o ∈ ops, o.Valid n := fun o ho => (hops o ho).valid

/-- Every rank does its part of the script and returns what is expected. -/
theorem answers (hn : 2 ≤ n) (ho : o.Valid n) {r : ℕ} (hr : r < n) :
    (o.run topology n r).Answers (Script.project r (o.script topology n))
      (o.accepted topology n r) := by
  cases o with
  | collective c => exact ((topology.schedule_call hn ho).performs r hr).answers
  | message source dest sendBuf recvBuf count dtype =>
      obtain ⟨hsource, hdest⟩ := ho
      by_cases hlink : dest ∈ topology.getNeighbors n source
      · have hne : dest ≠ source := (TopologyType.getNeighbors_wf hn hsource hlink).2
        have hback : source ∈ topology.getNeighbors n dest :=
          TopologyType.mem_getNeighbors_of_mem hsource hlink
        have hok : (message source dest sendBuf recvBuf count dtype : Operation α).accepted
            topology n r = true := decide_eq_true fun _ => hlink
        rw [hok, script, if_pos hlink, run]
        refine Performs.answers ?_
        by_cases hrs : r = source
        · subst hrs
          have hmem : dest ∈ (topology.neighborComm n r).transports := hlink
          rw [if_pos rfl, Communicator.send, if_neg hne, withTransport_of_mem hmem]
          simpa [Script.project, Event.project] using Performs.send dest _ _
        · by_cases hrd : r = dest
          · subst hrd
            have hmem : source ∈ (topology.neighborComm n r).transports := hback
            rw [if_neg hrs, if_pos rfl, Communicator.recv, if_neg (Ne.symm hne),
              withTransport_of_mem hmem]
            simpa [Script.project, Event.project, hrs] using Performs.recv source _ _
          · rw [if_neg hrs, if_neg hrd]
            simpa [Script.project, Event.project, hrs, hrd] using Performs.done
      · -- there is no link: both ends are refused
        rw [script, if_neg hlink, run]
        by_cases hrs : r = source
        · subst hrs
          have hnone : dest ∉ (topology.neighborComm n r).transports := hlink
          rw [if_pos rfl, Communicator.send_refused _ _ _ (.inl hnone)]
          simpa [accepted, hlink] using Prog.answers_ret false
        · by_cases hrd : r = dest
          · subst hrd
            have hnone : source ∉ (topology.neighborComm n r).transports := fun h =>
              hlink (TopologyType.mem_getNeighbors_of_mem hr h)
            rw [if_neg hrs, if_pos rfl, Communicator.recv_refused _ _ _ (.inl hnone)]
            simpa [accepted, hlink] using Prog.answers_ret false
          · rw [if_neg hrs, if_neg hrd]
            simpa [accepted, hrs, hrd] using Prog.answers_ret true

theorem wf_script (hn : 2 ≤ n) (ho : o.Valid n) :
    ∀ e ∈ o.script topology n, e.Wf (· < n) := by
  cases o with
  | collective c => exact (topology.schedule_call hn ho).wf
  | message source dest sendBuf recvBuf count dtype =>
      obtain ⟨hsource, hdest⟩ := ho
      rw [script]
      by_cases hlink : dest ∈ topology.getNeighbors n source
      · rw [if_pos hlink]
        refine List.forall_mem_singleton.mpr ⟨hsource, hdest, ?_, rfl⟩
        exact (TopologyType.getNeighbors_wf hn hsource hlink).2.symm
      · rw [if_neg hlink]
        exact fun e he => absurd he List.not_mem_nil

theorem raceFree_run (hn : 2 ≤ n) (ho : o.Valid n) {r : ℕ} (hr : r < n) :
    (o.run topology n r).RaceFree := by
  cases o with
  | collective c => exact (topology.schedule_call hn ho).raceFree r hr
  | message source dest sendBuf recvBuf count dtype =>
      rw [run]
      by_cases hrs : r = source
      · rw [if_pos hrs]
        exact Communicator.raceFree_send _ _ _
      · by_cases hrd : r = dest
        · rw [if_neg hrs, if_pos hrd]
          exact Communicator.raceFree_recv _ _ _
        · rw [if_neg hrs, if_neg hrd]
          exact raceFree_ret true

/-- **The script of an operation computes what the operation means.** -/
theorem userMem_exec_script (hn : 2 ≤ n) (ho : o.WellPosed topology n) (m : ℕ → RankMem α) :
    userMem (Script.exec (o.script topology n) m) = o.meaning topology n (userMem m) := by
  cases o with
  | collective c =>
      funext r
      by_cases hr : r < n
      · cases topology with
        | fullMesh => exact TopologyFullMesh.userMem_exec_callScript ho m hr
        | ring => exact TopologyRing.userMem_exec_callScript hn ho m hr
      · rw [meaning, Call.meaning_of_le (Nat.le_of_not_lt hr)]
        exact congrArg (fun M k => M (.user k))
          (Script.exec_of_wf (topology.schedule_call hn ho.valid).wf hr m)
  | message source dest sendBuf recvBuf count dtype =>
      rw [script, meaning]
      by_cases hlink : dest ∈ topology.getNeighbors n source
      · rw [if_pos hlink, if_pos hlink]
        funext r k i
        by_cases hr : r = dest
        · subst hr
          have hlen : (⟨.user sendBuf, 0, count⟩ : Slice Buf).len
              = (⟨.user recvBuf, 0, count⟩ : Slice Buf).len := rfl
          rw [userMem, Script.exec_cons, Script.exec_nil, Event.exec, Function.update_self,
            Function.update_self, Mem.write_read_apply _ _ hlen, Delivery.apply]
          by_cases hcell : k = recvBuf ∧ i < count
          · have hhas : (⟨.user recvBuf, 0, count⟩ : Slice Buf).Has (.user k) i :=
              ⟨congrArg Buf.user hcell.1, Nat.zero_le i, by simpa using hcell.2⟩
            rw [if_pos hcell, if_pos hhas]
            simp only [Nat.zero_add, Nat.sub_zero]
            rfl
          · have hhas : ¬ (⟨.user recvBuf, 0, count⟩ : Slice Buf).Has (.user k) i :=
              Slice.not_has_start fun h => hcell ⟨Buf.user.inj h.1, h.2⟩
            rw [if_neg hcell, if_neg hhas]
            rfl
        · rw [userMem, Script.exec_cons, Script.exec_nil, Event.exec, Function.update_of_ne hr,
            Function.update_of_ne hr]
          rfl
      · rw [if_neg hlink, if_neg hlink, Script.exec_nil]

end Operation

/-! ### Sessions -/

namespace TopologyType

variable (topology : TopologyType) (n : ℕ)

/-- What rank `r` runs: the operations in turn.  It returns whether every call returned
what was to be expected. -/
def session (ops : List (Operation α)) (r : ℕ) : RankProg α :=
  Prog.collect (ops.map fun o => o.run topology n r) fun results =>
    ret (decide (results = ops.map fun o => o.accepted topology n r))

/-- The ranks run a session; whoever is not a rank has nothing to do. -/
def sessionTeam (ops : List (Operation α)) : ℕ → RankProg α :=
  team (· < n) (topology.session n ops)

section Session

variable {topology : TopologyType} {n : ℕ} (hn : 2 ≤ n) {ops : List (Operation α)}
include hn

theorem userMem_exec_operations (hposed : ∀ o ∈ ops, o.WellPosed topology n)
    (m : ℕ → RankMem α) :
    userMem (Script.exec (ops.flatMap (Operation.script topology n)) m)
      = ops.foldl (fun M o => o.meaning topology n M) (userMem m) := by
  induction ops generalizing m with
  | nil => rfl
  | cons o ops ih =>
      rw [List.flatMap_cons, Script.exec_append, List.foldl_cons,
        ih fun o' ho' => hposed o' (List.mem_cons_of_mem o ho'),
        Operation.userMem_exec_script hn (hposed o List.mem_cons_self)]

section Valid

variable (hops : ∀ o ∈ ops, o.Valid n)
include hops

variable (topology) in
theorem schedule_operations :
    Schedule (· < n) (topology.session n ops) (ops.flatMap (Operation.script topology n)) where
  performs r hr := by
    rw [Script.project_flatMap]
    refine Performs.collect (fun o ho => Operation.answers hn (hops o ho) hr) ?_
    rw [decide_eq_true rfl]
    exact .done
  wf e he := by
    obtain ⟨o, ho, heo⟩ := List.mem_flatMap.mp he
    exact Operation.wf_script hn (hops o ho) e heo
  raceFree r hr := by
    refine Prog.raceFree_collect (fun p hp => ?_) fun _ => raceFree_ret _
    obtain ⟨o, ho, rfl⟩ := List.mem_map.mp hp
    exact Operation.raceFree_run hn (hops o ho) hr

/-- **Every run of a session is a part of a complete one.**  Whatever has happened so far,
the rest can follow; all complete runs take the same steps, in different orders, so no run
is longer than they are, and they end in one and the same state. -/
theorem session_terminates (m : ℕ → RankMem α) :
    ∃ (f : Fifo ℕ Buf α) (steps : List (Fifo.Label ℕ)), (∀ r < n, (f.node r).Returned true) ∧
      ∀ l s, Lts.Run Fifo.step (fun _ _ => True) (Fifo.init (topology.sessionTeam n ops) m) l s →
        ∃ rest, (l ++ rest).Perm steps ∧ Lts.Run Fifo.step (fun _ _ => True) s rest f := by
  have hschedule := schedule_operations topology hn hops
  obtain ⟨steps, t, hrun, hret, -⟩ := hschedule.exists_fifo_run m
  refine ⟨⟨t, fun _ _ => []⟩, steps, fun r _ => hret r, fun l s hl => ?_⟩
  exact Fifo.commuting.exists_rest (raceFree_start hschedule.raceFree_team m) hrun
    (Fifo.terminal_of_finished fun r => ⟨true, hret r⟩) hl

theorem exists_completed_session (m : ℕ → RankMem α) :
    ∃ s, Fifo.step.Reaches (Fifo.init (topology.sessionTeam n ops) m) s ∧
      ∀ r < n, (s.node r).Finished := by
  obtain ⟨s, hs, hret⟩ := (schedule_operations topology hn hops).exists_completed m
  exact ⟨s, hs, fun r _ => ⟨true, hret r⟩⟩

end Valid

section Completed

variable {m : ℕ → RankMem α} {s : Fifo ℕ Buf α}
  (hs : Fifo.step.Reaches (Fifo.init (topology.sessionTeam n ops) m) s)
  (hdone : ∀ r < n, (s.node r).Finished)
include hs hdone

theorem userMem_of_completed (hposed : ∀ o ∈ ops, o.WellPosed topology n) :
    userMem (fun r => (s.node r).mem)
      = ops.foldl (fun M o => o.meaning topology n M) (userMem m) := by
  obtain ⟨hnode, -⟩ :=
    (schedule_operations topology hn (Operation.valid_of_wellPosed hposed)).completed m hs hdone
  rw [← userMem_exec_operations hn hposed m]
  funext r k i
  exact congrFun (congrFun (hnode r).2 (.user k)) i

/-- **A session computes the composition of what its operations mean**: in every completed
run, whatever the interleaving, every call has returned what was expected, nothing is left
in transit, and if the operations are well posed, every buffer of every rank holds what
the composed meanings say. -/
theorem session_computes (hops : ∀ o ∈ ops, o.Valid n) :
    (∀ r < n, (s.node r).Returned true) ∧ (∀ i j, s.chan i j = []) ∧
      ((∀ o ∈ ops, o.WellPosed topology n) → userMem (fun r => (s.node r).mem)
        = ops.foldl (fun M o => o.meaning topology n M) (userMem m)) := by
  obtain ⟨hnode, hchan⟩ := (schedule_operations topology hn hops).completed m hs hdone
  exact ⟨fun r _ => (hnode r).1, hchan, userMem_of_completed hn hs hdone⟩

end Completed

end Session

/-- Three ranks on a ring sum up their rank numbers, rank 0 passes the sum on to rank 1,
and a message that rank 2 sends to itself is refused. -/
def threeRanks : List (Operation (BitVec 32)) :=
  [.collective (.allReduce (fun _ => 0) (fun _ => 1) 3 .int32 (.performReduce .sum 3)),
    .message 0 1 1 2 3 .int32, .message 2 2 0 1 3 .int32]

theorem wellPosed_threeRanks : ∀ o ∈ threeRanks, o.WellPosed .ring 3 := by
  have horderless : Orderless (Reducer.performReduce (w := 32) .sum 3).combine :=
    orderless_performReduce (by decide) 3
  have hsum : (Call.allReduce (fun _ => 0) (fun _ => 1) 3 .int32
      (.performReduce (w := 32) .sum 3)).WellPosed .ring 3 :=
    ⟨trivial, trivial, ⟨horderless, nofun⟩, fun _ _ => by decide⟩
  exact List.forall_mem_cons.mpr ⟨hsum, List.forall_mem_cons.mpr
    ⟨⟨by decide, by decide⟩, List.forall_mem_singleton.mpr ⟨by decide, by decide⟩⟩⟩

theorem valid_threeRanks : ∀ o ∈ threeRanks, o.Valid 3 :=
  Operation.valid_of_wellPosed wellPosed_threeRanks

theorem session_computes_three :
    ∃ s, Fifo.step.Reaches (Fifo.init (ring.sessionTeam 3 threeRanks)
        fun r _ _ => BitVec.ofNat 32 r) s ∧
      (∀ r < 3, (s.node r).Returned true) ∧ ∀ i < 3, (s.node 1).mem (.user 2) i = 3#32 := by
  obtain ⟨s, hs, hdone⟩ := exists_completed_session (by decide) valid_threeRanks
    fun r _ _ => BitVec.ofNat 32 r
  obtain ⟨hret, -, hmem⟩ := session_computes (by decide) hs hdone valid_threeRanks
  refine ⟨s, hs, hret, fun i hi => ?_⟩
  have hvalue : ∀ i < 3, threeRanks.foldl (fun M o => o.meaning .ring 3 M)
      (userMem fun r _ _ => BitVec.ofNat 32 r) 1 2 i = 3#32 := by decide
  exact (congrFun (congrFun (congrFun (hmem wellPosed_threeRanks) 1) 2) i).trans (hvalue i hi)

/-- An average over three ranks of a full mesh is not what it is meant to be, but it ends
in one way. -/
theorem session_terminates_three :
    ∃ (f : Fifo ℕ Buf (BitVec 32)) (steps : List (Fifo.Label ℕ)),
      (∀ r < 3, (f.node r).Returned true) ∧
      ∀ l s, Lts.Run Fifo.step (fun _ _ => True)
          (Fifo.init (fullMesh.sessionTeam 3 [.collective (.allReduce (fun _ => 0) (fun _ => 1) 3
            .int32 (.performReduce .avg 3)), .message 0 2 1 2 3 .int32])
            fun r _ _ => BitVec.ofNat 32 r) l s →
        ∃ rest, (l ++ rest).Perm steps ∧ Lts.Run Fifo.step (fun _ _ => True) s rest f := by
  have hops : ∀ o ∈ [.collective (.allReduce (fun _ => 0) (fun _ => 1) 3 .int32
      (.performReduce (w := 32) .avg 3)), .message 0 2 1 2 3 .int32], Operation.Valid 3 o :=
    List.forall_mem_cons.mpr ⟨trivial, List.forall_mem_singleton.mpr ⟨by decide, by decide⟩⟩
  exact session_terminates (by decide) hops _

end TopologyType

end MiniCcl
