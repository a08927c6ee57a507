/-
MiniCcl/SessionStreams.lean

Sessions over stream sockets.

`TransportTCP` sends and receives in loops: the operating system takes as many bytes of a
`Send` as its buffer has room for, and gives as many to a `Recv` as have come.  Both ends of
an exchange can be full of bytes that nobody takes, so it matters in which order the ranks
send and receive.  The collectives get it right for buffers of any size, even of one byte:
`session_over_streams`.
-/
import MiniCcl.Sessions
import MiniCcl.WireSchedule

namespace MiniCcl

variable {α : Type*}

theorem getDataTypeSize_pos (dtype : DataType) : 0 < getDataTypeSize dtype := by
  cases dtype <;> decide

/-! ### Every element has a byte -/

section Wide

variable {n count w root : ℕ} {sendBuf recvBuf : ℕ → Buf} {red : Reducer α}

theorem TopologyFullMesh.wide_exchanges (hw : 0 < w) {s d : ℕ → ℕ → Slice Buf} :
    Script.Wide (exchanges n w s d : Script ℕ Buf α) :=
  Script.wide_flatMap fun _ _ => Script.wide_flatMap fun _ _ =>
    Script.wide_cons.mpr ⟨hw, Script.wide_cons.mpr ⟨hw, Script.wide_nil⟩⟩

theorem TopologyFullMesh.wide_doubling (hw : 0 < w) {L : List ℕ} {s d : ℕ → Slice Buf}
    {perform : ℕ → ℕ → RankMem α → RankMem α} {blocks : ℕ} :
    Script.Wide (L.flatMap (doublingStep n w s d perform blocks)) :=
  Script.wide_flatMap fun _ _ => Script.wide_append.mpr
    ⟨Script.wide_hops hw _ _ _ _, Script.wide_flatMap fun _ _ => Script.wide_locals _ _⟩

theorem TopologyFullMesh.wide_callScript (c : Call α) : Script.Wide (callScript n c) := by
  cases c with
  | broadcast buffer count dtype root =>
      exact Script.wide_outward (getDataTypeSize_pos dtype) _ _ _ _
  | gather sendBuf recvBuf count dtype root =>
      exact Script.wide_cons.mpr
        ⟨trivial, Script.wide_inward (getDataTypeSize_pos dtype) _ _ _ _ _⟩
  | scatter sendBuf recvBuf count dtype root =>
      exact Script.wide_cons.mpr
        ⟨trivial, Script.wide_outward (getDataTypeSize_pos dtype) _ _ _ _⟩
  | reduce sendBuf recvBuf count dtype red root =>
      exact Script.wide_cons.mpr
        ⟨trivial, Script.wide_inward (getDataTypeSize_pos dtype) _ _ _ _ _⟩
  | allGather sendBuf recvBuf count dtype =>
      exact Script.wide_append.mpr
        ⟨Script.wide_locals _ _, wide_exchanges (getDataTypeSize_pos dtype)⟩
  | reduceScatter sendBuf recvBuf count dtype red =>
      exact Script.wide_append.mpr ⟨Script.wide_locals _ _, Script.wide_append.mpr
        ⟨wide_doubling (getDataTypeSize_pos dtype), Script.wide_locals _ _⟩⟩
  | allReduce sendBuf recvBuf count dtype red =>
      exact Script.wide_append.mpr
        ⟨Script.wide_locals _ _, wide_doubling (getDataTypeSize_pos dtype)⟩
  | allToAll sendBuf recvBuf count dtype =>
      exact Script.wide_append.mpr
        ⟨Script.wide_locals _ _, wide_exchanges (getDataTypeSize_pos dtype)⟩
  | barrier =>
      exact Script.wide_append.mpr ⟨Script.wide_inward (by decide) _ _ _ _ _,
        Script.wide_outward (by decide) _ _ _ _⟩

theorem TopologyRing.wide_scatterScript (hw : 0 < w) :
    Script.Wide (scatterScript n count w root sendBuf recvBuf : Script ℕ Buf α) :=
  Script.wide_cons.mpr
    ⟨trivial, Script.wide_flatMap fun _ _ => Script.wide_chain hw _ _ _ _ _⟩

theorem TopologyRing.wide_broadcastScript (hw : 0 < w) {buffer : ℕ → Buf} :
    Script.Wide (broadcastScript n count w root buffer : Script ℕ Buf α) :=
  Script.wide_chain hw _ _ _ _ _

theorem TopologyRing.wide_reduceScript (hw : 0 < w) :
    Script.Wide (reduceScript n count w root sendBuf recvBuf red) :=
  Script.wide_append.mpr ⟨Script.wide_locals _ _, Script.wide_chain hw _ _ _ _ _⟩

theorem TopologyRing.wide_allReduceScript (hw : 0 < w) :
    Script.Wide (allReduceScript n count w sendBuf recvBuf red) := by
  by_cases htwo : n = 2
  · rw [allReduceScript, if_pos htwo]
    exact Script.wide_append.mpr ⟨Script.wide_locals _ _, Script.wide_append.mpr
      ⟨Script.wide_hops hw _ _ _ _, Script.wide_locals _ _⟩⟩
  · rw [allReduceScript, if_neg htwo]
    refine Script.wide_append.mpr ⟨Script.wide_locals _ _, Script.wide_append.mpr ⟨?_, ?_⟩⟩
    · exact Script.wide_flatMap fun _ _ => Script.wide_append.mpr
        ⟨Script.wide_hops hw _ _ _ _, Script.wide_locals _ _⟩
    · exact Script.wide_flatMap fun _ _ => Script.wide_hops hw _ _ _ _

theorem TopologyRing.wide_callScript (c : Call α) : Script.Wide (callScript n c) := by
  cases c with
  | broadcast buffer count dtype root => exact wide_broadcastScript (getDataTypeSize_pos dtype)
  | gather sendBuf recvBuf count dtype root =>
      exact Script.wide_append.mpr
        ⟨Script.wide_locals _ _, Script.wide_chain (getDataTypeSize_pos dtype) _ _ _ _ _⟩
  | scatter sendBuf recvBuf count dtype root =>
      exact wide_scatterScript (getDataTypeSize_pos dtype)
  | reduce sendBuf recvBuf count dtype red root =>
      exact wide_reduceScript (getDataTypeSize_pos dtype)
  | allGather sendBuf recvBuf count dtype =>
      exact Script.wide_append.mpr ⟨Script.wide_locals _ _,
        Script.wide_flatMap fun _ _ => Script.wide_hops (getDataTypeSize_pos dtype) _ _ _ _⟩
  | reduceScatter sendBuf recvBuf count dtype red =>
      exact Script.wide_append.mpr
        ⟨wide_reduceScript (getDataTypeSize_pos dtype),
          wide_scatterScript (getDataTypeSize_pos dtype)⟩
  | allReduce sendBuf recvBuf count dtype red =>
      exact wide_allReduceScript (getDataTypeSize_pos dtype)
  | allToAll sendBuf recvBuf count dtype =>
      refine Script.wide_append.mpr ⟨Script.wide_locals _ _, Script.wide_flatMap fun _ _ => ?_⟩
      exact Script.wide_append.mpr ⟨Script.wide_locals _ _, Script.wide_append.mpr
        ⟨wide_broadcastScript (getDataTypeSize_pos dtype), Script.wide_locals _ _⟩⟩
  | barrier =>
      have hround : Script.Wide (barrierRoundScript n : Script ℕ Buf α) :=
        Script.wide_hops (by decide) _ _ _ _
      exact Script.wide_append.mpr ⟨hround, hround⟩

theorem Operation.wide_script (topology : TopologyType) (o : Operation α) :
    Script.Wide (o.script topology n) := by
  cases o with
  | collective c =>
      cases topology with
      | fullMesh => exact TopologyFullMesh.wide_callScript c
      | ring => exact TopologyRing.wide_callScript c
  | message source dest sendBuf recvBuf count dtype =>
      rw [script]
      by_cases hlink : dest ∈ topology.getNeighbors n source
      · rw [if_pos hlink]
        exact Script.wide_cons.mpr ⟨getDataTypeSize_pos dtype, Script.wide_nil⟩
      · rw [if_neg hlink]
        exact Script.wide_nil

end Wide

/-! ### Sessions -/

namespace TopologyType

variable {topology : TopologyType} {n : ℕ}

variable (topology) in
/-- **Sessions run over stream sockets**, whatever the size of their buffers and however
the operating system cuts the data: no run goes on for ever, and where none of the ranks
can go on, all of them have returned, every call returned what was expected, nothing is
left in the sockets, and if the operations are well posed, every buffer holds what they
mean. -/
theorem session_over_streams (hn : 2 ≤ n) {ops : List (Operation α)}
    (hops : ∀ o ∈ ops, o.Valid n) {capacity : ℕ} (hcap : 1 ≤ capacity) (m : ℕ → RankMem α) :
    ∃ bound, ∀ l s, Lts.Run (Wire.step capacity) (fun _ _ => True)
        (Wire.init (topology.sessionTeam n ops) m) l s →
      l.length ≤ bound ∧
      ((Wire.step capacity).Terminal s → (∀ r < n, (s.node r).Returned true) ∧
        (∀ i j, s.conn i j = .idle) ∧
        ((∀ o ∈ ops, o.WellPosed topology n) → userMem (fun r => (s.node r).mem)
          = ops.foldl (fun M o => o.meaning topology n M) (userMem m))) := by
  obtain ⟨f, bound, hret, hidle, hmem, hrest⟩ := (schedule_operations topology hn hops).wire_rest
    (Script.wide_flatMap fun o _ => o.wide_script topology) hcap m
  refine ⟨bound, fun l s hl => ?_⟩
  obtain ⟨hlength, l', hl'⟩ := hrest l s hl
  refine ⟨hlength, fun hterminal => ?_⟩
  obtain rfl : s = f := by
    cases hl' with
    | nil => rfl
    | cons hstep _ _ => exact absurd hstep (hterminal _ _)
  refine ⟨fun r _ => hret r, hidle, fun hposed => ?_⟩
  rw [← userMem_exec_operations hn hposed m]
  funext r k i
  exact congrFun (congrFun (hmem r) (.user k)) i

theorem session_over_streams_three :
    ∃ bound, ∀ l s, Lts.Run (Wire.step 1) (fun _ _ => True)
        (Wire.init (ring.sessionTeam 3 threeRanks) fun r _ _ => BitVec.ofNat 32 r) l s →
      l.length ≤ bound ∧
      ((Wire.step 1).Terminal s → (∀ r < 3, (s.node r).Returned true) ∧
        (∀ i j, s.conn i j = .idle) ∧
        userMem (fun r => (s.node r).mem)
          = threeRanks.foldl (fun M o => o.meaning .ring 3 M)
            (userMem fun r _ _ => BitVec.ofNat 32 r)) := by
  obtain ⟨bound, hall⟩ := session_over_streams .ring (by decide) valid_threeRanks
    (Nat.le_refl 1) fun r _ _ => BitVec.ofNat 32 r
  refine ⟨bound, fun l s hl => ?_⟩
  obtain ⟨hlength, hend⟩ := hall l s hl
  refine ⟨hlength, fun hterminal => ?_⟩
  obtain ⟨hret, hidle, hmem⟩ := hend hterminal
  exact ⟨hret, hidle, hmem wellPosed_threeRanks⟩

end TopologyType

end MiniCcl
