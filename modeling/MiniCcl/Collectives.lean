/-
MiniCcl/Collectives.lean

The results of the collectives, on both topologies and for every root.

A run is complete when all ranks have returned.  What it leaves in the memories
is what the script of the call computes (`Completed.mem`), whatever the order of
the steps; each result below is a fact about the script of either topology,
carried over to all completed runs.
-/
import MiniCcl.MeshAllReduce
import MiniCcl.MeshBlocks
import MiniCcl.MeshRooted
import MiniCcl.RingBlocks
import MiniCcl.TopologyFactory

namespace MiniCcl

variable {α : Type*} {n : ℕ}

/-- `s` is the end of a run of the programs `P` of `n` ranks from the memories `m`. -/
def Completed (n : ℕ) (P : ℕ → RankProg α) (m : ℕ → RankMem α) (s : Fifo ℕ Buf α) : Prop :=
  Fifo.step.Reaches (Fifo.init (team (· < n) P) m) s ∧ ∀ r < n, (s.node r).Finished

theorem Completed.mem {P : ℕ → RankProg α} {C : Script ℕ Buf α} {m : ℕ → RankMem α}
    {s : Fifo ℕ Buf α} (h : Completed n P m s) (hP : Schedule (· < n) P C) (r : ℕ) :
    (s.node r).mem = Script.exec C m r :=
  ((hP.completed m h.1 h.2).1 r).2

theorem exists_completed {P : ℕ → RankProg α} {C : Script ℕ Buf α}
    (hP : Schedule (· < n) P C) (m : ℕ → RankMem α) : ∃ s, Completed n P m s := by
  obtain ⟨s, hs, hret⟩ := hP.exists_completed m
  exact ⟨s, hs, fun r _ => ⟨true, hret r⟩⟩

namespace TopologyType

/-- What the ranks run when all of them make the call `c`. -/
def programs (topology : TopologyType) (n : ℕ) (c : Call α) (r : ℕ) : RankProg α :=
  topology.call n r (topology.neighborComm n r) c

/-- The part of a `Broadcast` of any buffer that one rank makes. -/
def broadcast : TopologyType → ℕ → ℕ → Communicator → Buf → ℕ → DataType → ℕ → RankProg α
  | fullMesh => TopologyFullMesh.broadcast
  | ring => TopologyRing.broadcast

variable (topology : TopologyType) (hn : 2 ≤ n)
include hn

theorem schedule_programs {c : Call α} (hc : c.Valid n) :
    Schedule (· < n) (topology.programs n c) (topology.callScript n c) :=
  topology.schedule_call hn hc

end TopologyType

/-! ### Gather and Scatter -/

section Rooted

variable {root : ℕ} (hn : 2 ≤ n) (hroot : root < n) (sendBuf recvBuf : ℕ → ℕ) (count : ℕ)
  (dtype : DataType) (m : ℕ → RankMem α)
include hn hroot

theorem gather_of_completed {topology : TopologyType} {s : Fifo ℕ Buf α}
    (hs : Completed n (topology.programs n (.gather sendBuf recvBuf count dtype root)) m s)
    {k i : ℕ} (hk : k < n) (hi : i < count) :
    (s.node root).mem (.user (recvBuf root)) (k * count + i) = m k (.user (sendBuf k)) i := by
  rw [hs.mem (topology.schedule_programs hn hroot)]
  cases topology with
  | fullMesh => exact TopologyFullMesh.exec_gatherScript _ m hk hi
  | ring =>
      exact TopologyRing.exec_gatherScript (userBuf sendBuf) (userBuf recvBuf) m hn hroot _
        Buf.noConfusion hk hi

/-- **`Gather`** leaves rank `k`'s data in block `k` of the root's buffer, so the root
ends with the same data on both topologies. -/
theorem gather_correct :
    (∀ (topology : TopologyType) s,
      Completed n (topology.programs n (.gather sendBuf recvBuf count dtype root)) m s →
      ∀ k < n, ∀ i < count,
        (s.node root).mem (.user (recvBuf root)) (k * count + i) = m k (.user (sendBuf k)) i) ∧
      ∀ s s',
        Completed n (TopologyType.ring.programs n (.gather sendBuf recvBuf count dtype root)) m s →
        Completed n
          (TopologyType.fullMesh.programs n (.gather sendBuf recvBuf count dtype root)) m s' →
        ∀ j < n * count, (s.node root).mem (.user (recvBuf root)) j
          = (s'.node root).mem (.user (recvBuf root)) j := by
  refine ⟨fun topology s hs k hk i hi => ?_, fun s s' hs hs' j hj => ?_⟩
  · exact gather_of_completed hn hroot sendBuf recvBuf count dtype m hs hk hi
  · have hpos : 0 < count := Nat.pos_of_ne_zero fun h => by simp [h] at hj
    have hk : j / count < n := Nat.div_lt_of_lt_mul (Nat.mul_comm n count ▸ hj)
    rw [← Nat.div_add_mod' j count,
      gather_of_completed hn hroot sendBuf recvBuf count dtype m hs hk (Nat.mod_lt _ hpos),
      gather_of_completed hn hroot sendBuf recvBuf count dtype m hs' hk (Nat.mod_lt _ hpos)]

/-- **`Scatter`** leaves in rank `k`'s buffer block `k` of the root's data, that is of
what the root passed in unless it scatters in place. -/
theorem scatter_correct (topology : TopologyType) {s : Fifo ℕ Buf α}
    (hs : Completed n (topology.programs n (.scatter sendBuf recvBuf count dtype root)) m s)
    {k i : ℕ} (hk : k < n) (hi : i < count) :
    (s.node k).mem (.user (recvBuf k)) i
        = (s.node root).mem (.user (sendBuf root)) (k * count + i) ∧
      (sendBuf root ≠ recvBuf root → (s.node k).mem (.user (recvBuf k)) i
        = m root (.user (sendBuf root)) (k * count + i)) := by
  have hself : (s.node k).mem (.user (recvBuf k)) i
      = (s.node root).mem (.user (sendBuf root)) (k * count + i) := by
    rw [hs.mem (topology.schedule_programs hn hroot), hs.mem (topology.schedule_programs hn hroot)]
    cases topology with
    | fullMesh => exact TopologyFullMesh.exec_scatterScript_self _ m hk hi
    | ring =>
        exact TopologyRing.exec_scatterScript_self hroot (fun _ => Buf.noConfusion)
          Buf.noConfusion _ m hk hi
  refine ⟨hself, fun hne => hself.trans ?_⟩
  have hbuf : userBuf recvBuf root ≠ userBuf sendBuf root := fun h => hne (Buf.user.inj h).symm
  rw [hs.mem (topology.schedule_programs hn hroot)]
  cases topology with
  | fullMesh => exact TopologyFullMesh.exec_scatterScript_root _ m hbuf _
  | ring => exact TopologyRing.exec_scatterScript_root hroot Buf.noConfusion _ hbuf m _

end Rooted

/-- Three ranks hold 0, 1 and 2, and rank 1 gathers. -/
theorem gather_correct_three :
    ∃ s, Completed 3 (TopologyType.ring.programs 3
        (.gather (fun _ => 0) (fun _ => 1) 1 .int32 1)) (fun r _ _ => r) s ∧
      ∀ k < 3, ∀ i < 1, (s.node 1).mem (.user 1) (k * 1 + i) = k := by
  obtain ⟨s, hs⟩ := exists_completed (TopologyType.ring.schedule_programs (n := 3) (by decide)
    (c := .gather (fun _ => 0) (fun _ => 1) 1 .int32 1) (by decide : 1 < 3)) fun r _ _ => r
  exact ⟨s, hs, (gather_correct (by decide) (by decide) (fun _ => 0) (fun _ => 1) 1 .int32
    fun r _ _ => r).1 .ring s hs⟩

/-- Rank 2 of three ranks scatters the numbers 0 to 5. -/
theorem scatter_correct_three :
    ∃ s, Completed 3 (TopologyType.fullMesh.programs 3
        (.scatter (fun _ => 0) (fun _ => 1) 2 .int32 2)) (fun _ _ j => j) s ∧
      (s.node 1).mem (.user 1) 0 = 2 := by
  obtain ⟨s, hs⟩ := exists_completed (TopologyType.fullMesh.schedule_programs (n := 3) (by decide)
    (c := .scatter (fun _ => 0) (fun _ => 1) 2 .int32 2) (by decide : 2 < 3)) fun _ _ j => j
  exact ⟨s, hs, (scatter_correct (by decide) (by decide) (fun _ => 0) (fun _ => 1) 2 .int32
    (fun _ _ j => j) .fullMesh hs (k := 1) (i := 0) (by decide) (by decide)).2 (by decide)⟩

/-! ### AllGather, AllToAll and Broadcast -/

section Symmetric

variable (hn : 2 ≤ n)
include hn

/-- **`AllGather`** leaves rank `k`'s data in block `k` of every rank's buffer.  On the
full mesh a rank sends from its `send_buf` while blocks arrive, so there the two
buffers have to be different; on the ring it sends from the receive buffer only. -/
theorem allGather_correct (topology : TopologyType) {sendBuf recvBuf : ℕ → ℕ}
    (hne : topology = .fullMesh → ∀ r < n, sendBuf r ≠ recvBuf r) (count : ℕ) (dtype : DataType)
    (m : ℕ → RankMem α) {s : Fifo ℕ Buf α}
    (hs : Completed n (topology.programs n (.allGather sendBuf recvBuf count dtype)) m s)
    {r k i : ℕ} (hr : r < n) (hk : k < n) (hi : i < count) :
    (s.node r).mem (.user (recvBuf r)) (k * count + i) = m k (.user (sendBuf k)) i := by
  rw [hs.mem (topology.schedule_programs hn trivial)]
  cases topology with
  | fullMesh =>
      have hne' : ∀ r < n, userBuf sendBuf r ≠ userBuf recvBuf r :=
        fun r hr h => hne rfl r hr (Buf.user.inj h)
      exact TopologyFullMesh.exec_allGatherScript hne' _ m hr hk hi
  | ring =>
      show Script.exec (TopologyRing.allGatherScript n count _ (userBuf sendBuf)
        (userBuf recvBuf)) m r (userBuf recvBuf r) _ = _
      exact TopologyRing.exec_allGatherScript hn _ m hk hi hr

/-- **`AllToAll`** transposes the blocks: block `k` on rank `r` is block `r` of what rank
`k` sent.  And a **`Broadcast`** of any buffers, such as the `temp_buffer` of `AllToAll`
on the ring, leaves the root's on every rank. -/
theorem allToAll_broadcast_correct (topology : TopologyType) (count : ℕ) (dtype : DataType) :
    (∀ (sendBuf recvBuf : ℕ → ℕ) (m : ℕ → RankMem α) s, (∀ r < n, sendBuf r ≠ recvBuf r) →
      Completed n (topology.programs n (.allToAll sendBuf recvBuf count dtype)) m s →
      ∀ r < n, ∀ k < n, ∀ i < count,
        (s.node r).mem (.user (recvBuf r)) (k * count + i)
          = m k (.user (sendBuf k)) (r * count + i)) ∧
      ∀ (buffer : ℕ → Buf) (root : ℕ) (m : ℕ → RankMem α) s, root < n →
        Completed n (fun r => topology.broadcast n r (topology.neighborComm n r) (buffer r)
          count dtype root) m s →
        ∀ r < n, ∀ i < count, (s.node r).mem (buffer r) i = m root (buffer root) i := by
  refine ⟨fun sendBuf recvBuf m s hne hs r hr k hk i hi => ?_,
    fun buffer root m s hroot hs r hr i hi => ?_⟩
  · have hne' : ∀ r < n, userBuf sendBuf r ≠ userBuf recvBuf r :=
      fun r hr h => hne r hr (Buf.user.inj h)
    rw [hs.mem (topology.schedule_programs hn trivial)]
    cases topology with
    | fullMesh => exact TopologyFullMesh.exec_allToAllScript hne' _ m hr hk hi
    | ring =>
        exact TopologyRing.exec_allToAllScript (fun _ _ => Buf.noConfusion)
          (fun _ _ => Buf.noConfusion) hne' _ m hr hk hi
  · cases topology with
    | fullMesh =>
        rw [hs.mem (TopologyFullMesh.schedule_broadcast hroot buffer count dtype)]
        exact TopologyFullMesh.exec_broadcastScript _ m buffer hr hi
    | ring =>
        rw [hs.mem (TopologyRing.schedule_broadcast hroot buffer count dtype)]
        exact TopologyRing.exec_broadcastScript buffer m hroot _ hr hi

end Symmetric

/-- Two ranks on the full mesh hold 0 and 1. -/
theorem allGather_correct_two :
    ∃ s, Completed 2 (TopologyType.fullMesh.programs 2
        (.allGather (fun _ => 0) (fun _ => 1) 1 .int32)) (fun r _ _ => r) s ∧
      (s.node 0).mem (.user 1) 1 = 1 := by
  obtain ⟨s, hs⟩ := exists_completed (TopologyType.fullMesh.schedule_programs (n := 2) (by decide)
    (c := .allGather (fun _ => 0) (fun _ => 1) 1 .int32) trivial) fun r _ _ => r
  exact ⟨s, hs, allGather_correct (by decide) .fullMesh (by decide) 1 .int32 (fun r _ _ => r) hs
    (r := 0) (k := 1) (i := 0) (by decide) (by decide) (by decide)⟩

/-- In place on the full mesh: rank 1 has received the block of rank 0 over its own when it
sends it. -/
theorem allGather_in_place_two :
    ∃ s, Completed 2 (TopologyType.fullMesh.programs 2
        (.allGather (fun _ => 0) (fun _ => 0) 1 .int32)) (fun r _ _ => r) s ∧
      (s.node 0).mem (.user 0) (1 * 1 + 0) = 0 ∧
      (s.node 0).mem (.user 0) (1 * 1 + 0) ≠ (fun r _ _ => r : ℕ → RankMem ℕ) 1 (.user 0) 0 := by
  have hschedule := TopologyType.fullMesh.schedule_programs (α := ℕ) (n := 2) (by decide)
    (c := .allGather (fun _ => 0) (fun _ => 0) 1 .int32) trivial
  obtain ⟨s, hs⟩ := exists_completed hschedule fun r _ _ => r
  have hzero : (s.node 0).mem (.user 0) (1 * 1 + 0) = 0 := by
    rw [hs.mem hschedule]
    decide
  refine ⟨s, hs, hzero, ?_⟩
  rw [hzero]
  decide

/-- Three ranks on the ring; rank `r` holds `10 * r + j` for rank `j`. -/
theorem allToAll_broadcast_correct_three :
    ∃ s, Completed 3 (TopologyType.ring.programs 3
        (.allToAll (fun _ => 0) (fun _ => 1) 1 .int32)) (fun r _ j => 10 * r + j) s ∧
      ∀ r < 3, ∀ k < 3, ∀ i < 1,
        (s.node r).mem (.user 1) (k * 1 + i) = 10 * k + (r * 1 + i) := by
  obtain ⟨s, hs⟩ := exists_completed (TopologyType.ring.schedule_programs (n := 3) (by decide)
    (c := .allToAll (fun _ => 0) (fun _ => 1) 1 .int32) trivial) fun r _ j => 10 * r + j
  exact ⟨s, hs, (allToAll_broadcast_correct (by decide) .ring 1 .int32).1 (fun _ => 0)
    (fun _ => 1) _ s (by decide) hs⟩

/-! ### Reductions -/

section Reductions

variable {w : ℕ} {op : ReduceOp} (hop : op ≠ .avg) (hn : 2 ≤ n)
include hop hn

/-- A chain to the root goes through all ranks. -/
theorem isReduction_rankFrom {root : ℕ} (hroot : root < n) (x : ℕ → BitVec w) :
    IsReduction op (Finset.range n) x
      (chainFold (reduceElem op) (fun p => x (TopologyRing.rankFrom n root p)) (n - 1)) := by
  have hinj : Set.InjOn (TopologyRing.rankFrom n root) (Set.Iic (n - 1)) := by
    intro p hp q hq h
    have hp := Set.mem_Iic.mp hp
    have hq := Set.mem_Iic.mp hq
    exact TopologyRing.rankFrom_inj hroot (by omega) (by omega) h
  have himage : (Finset.range (n - 1 + 1)).image (TopologyRing.rankFrom n root)
      = Finset.range n := by
    rw [Nat.sub_add_cancel (by omega)]
    apply Finset.eq_of_subset_of_card_le
    · intro r hr
      obtain ⟨p, -, rfl⟩ := Finset.mem_image.mp hr
      exact Finset.mem_range.mpr (TopologyRing.rankAt_lt (by omega) _)
    · rw [Finset.card_image_of_injOn]
      intro p hp q hq h
      have hp := Finset.mem_range.mp hp
      have hq := Finset.mem_range.mp hq
      exact TopologyRing.rankFrom_inj hroot hp hq h
  rw [← himage]
  exact isReduction_chainFold hop x hinj

omit hn in
/-- The root and its peers are all ranks. -/
theorem isReduction_peersOf {root : ℕ} (hroot : root < n) (x : ℕ → BitVec w) :
    IsReduction op (Finset.range n) x
      (starFold (reduceElem op) x (x root) (TopologyFullMesh.peersOf n root)) := by
  have hunion : Finset.range n = {root} ∪ (TopologyFullMesh.peersOf n root).toFinset := by
    ext r
    simp only [Finset.mem_range, Finset.mem_union, Finset.mem_singleton, List.mem_toFinset,
      TopologyFullMesh.mem_peersOf]
    omega
  rw [hunion]
  apply isReduction_starFold hop (.singleton hop x root) (TopologyFullMesh.nodup_peersOf n root)
  intro p hp hmem
  exact (TopologyFullMesh.mem_peersOf.mp hp).2 (Finset.mem_singleton.mp hmem)

/-- **`Reduce`** on both topologies leaves the reduction over all ranks at the root, and
**`ReduceScatter`** on the ring leaves that of block `r` on rank `r`. -/
theorem reduce_correct (sendBuf recvBuf : ℕ → ℕ) (count : ℕ) (dtype : DataType)
    (m : ℕ → RankMem (BitVec w)) :
    (∀ (topology : TopologyType) root s, root < n →
      Completed n (topology.programs n
        (.reduce sendBuf recvBuf count dtype (.performReduce op n) root)) m s →
      ∀ i < count, IsReduction op (Finset.range n) (fun q => m q (.user (sendBuf q)) i)
        ((s.node root).mem (.user (recvBuf root)) i)) ∧
      ∀ s, Completed n (TopologyType.ring.programs n
          (.reduceScatter sendBuf recvBuf count dtype (.performReduce op n))) m s →
        ∀ r < n, ∀ i < count,
          IsReduction op (Finset.range n) (fun q => m q (.user (sendBuf q)) (r * count + i))
            ((s.node r).mem (.user (recvBuf r)) i) := by
  refine ⟨fun topology root s hroot hs i hi => ?_, fun s hs r hr i hi => ?_⟩
  · cases topology with
    | fullMesh =>
        have hresult := TopologyFullMesh.reduce_of_completed (by omega) hroot hs.1 hs.2 hi
        rw [hresult, combine_performReduce hop]
        exact isReduction_peersOf hop hroot fun q => m q (.user (sendBuf q)) i
    | ring =>
        have hresult := TopologyRing.reduce_of_completed hn hroot hs.1 hs.2 hi
        rw [hresult, combine_performReduce hop]
        exact isReduction_rankFrom hop hn hroot fun q => m q (.user (sendBuf q)) i
  · have hresult := TopologyRing.reduceScatter_of_completed hn hs.1 hs.2 hr hi
    rw [hresult, combine_performReduce hop]
    exact isReduction_rankFrom hop hn (by omega) fun q => m q (.user (sendBuf q)) (r * count + i)

end Reductions

/-- Five ranks on the ring, all of which hold 1; rank 2 gets their sum. -/
theorem reduce_correct_five :
    ∃ s, Completed 5 (TopologyType.ring.programs 5
        (.reduce (fun _ => 0) (fun _ => 1) 1 .int32 (Reducer.performReduce (w := 32) .sum 5) 2))
        (fun _ _ _ => 1) s ∧
      (s.node 2).mem (.user 1) 0 = 5 := by
  obtain ⟨s, hs⟩ := exists_completed (TopologyType.ring.schedule_programs (n := 5) (by decide)
    (c := .reduce (fun _ => 0) (fun _ => 1) 1 .int32 (Reducer.performReduce (w := 32) .sum 5) 2)
    (by decide : 2 < 5)) fun _ _ _ => 1
  have hsum := (reduce_correct (by decide : ReduceOp.sum ≠ .avg) (by decide) (fun _ => 0)
    (fun _ => 1) 1 .int32 fun _ _ _ => 1).1 .ring 2 s (by decide) hs 0 (by decide)
  exact ⟨s, hs, hsum⟩

/-! ### ReduceScatter on the full mesh -/

/-- **`ReduceScatter` on the full mesh is a slice of `AllReduce`**: from the same inputs,
rank `r` gets block `r` of what `AllReduce` of the whole vector leaves on it.  This holds
for any reduction and any world size, also where neither is the full reduction. -/
theorem reduceScatter_eq_allReduce (hn : 1 ≤ n) {sendBuf recvBuf sendBuf' recvBuf' : ℕ → ℕ}
    {count : ℕ} {dtype dtype' : DataType} (red : Reducer α) {m m' : ℕ → RankMem α}
    (hm : ∀ q < n, ∀ j < n * count, m q (.user (sendBuf q)) j = m' q (.user (sendBuf' q)) j)
    {s s' : Fifo ℕ Buf α}
    (hs : Completed n (TopologyType.fullMesh.programs n
      (.reduceScatter sendBuf recvBuf count dtype red)) m s)
    (hs' : Completed n (TopologyType.fullMesh.programs n
      (.allReduce sendBuf' recvBuf' (n * count) dtype' red)) m' s')
    {r i : ℕ} (hr : r < n) (hi : i < count) :
    (s.node r).mem (.user (recvBuf r)) i
      = (s'.node r).mem (.user (recvBuf' r)) (r * count + i) := by
  have hcell : r * count + i < n * count := Slice.block_lt hr hi
  have hslice := TopologyFullMesh.reduceScatter_of_completed hn hs.1 hs.2 hr hi
  have hwhole := TopologyFullMesh.allReduce_of_completed hn hs'.1 hs'.2 hr hcell
  rw [hslice, hwhole]
  exact doublingFold_congr (fun q hq => hm q hq _ hcell) hr

/-- Three ranks and `AVG`, for which neither result is the mean. -/
theorem reduceScatter_eq_allReduce_three :
    ∃ s s', Completed 3 (TopologyType.fullMesh.programs 3 (.reduceScatter (fun _ => 0)
        (fun _ => 1) 1 .int32 (Reducer.performReduce (w := 32) .avg 3)))
        (fun r _ j => BitVec.ofNat 32 (r + j)) s ∧
      Completed 3 (TopologyType.fullMesh.programs 3 (.allReduce (fun _ => 0) (fun _ => 1) (3 * 1)
        .int32 (Reducer.performReduce (w := 32) .avg 3)))
        (fun r _ j => BitVec.ofNat 32 (r + j)) s' ∧
      (s.node 2).mem (.user 1) 0 = (s'.node 2).mem (.user 1) (2 * 1 + 0) := by
  let red := Reducer.performReduce (w := 32) .avg 3
  have hn : 1 ≤ 3 := by decide
  obtain ⟨s, hs⟩ := exists_completed (TopologyFullMesh.schedule_call hn
    (c := .reduceScatter (fun _ => 0) (fun _ => 1) 1 .int32 red) trivial)
    fun r _ j => BitVec.ofNat 32 (r + j)
  obtain ⟨s', hs'⟩ := exists_completed (TopologyFullMesh.schedule_call hn
    (c := .allReduce (fun _ => 0) (fun _ => 1) (3 * 1) .int32 red) trivial)
    fun r _ j => BitVec.ofNat 32 (r + j)
  exact ⟨s, s', hs, hs', reduceScatter_eq_allReduce hn red (fun _ _ _ _ => rfl) hs hs'
    (by decide) (by decide)⟩

end MiniCcl
