/-
MiniCcl/MeshAllReduce.lean

What `AllReduce` and `ReduceScatter` on the full mesh compute.

Both are recursive doubling on whole vectors (`exec_allReduceScript`,
`exec_reduceScatterScript`), for any reduction.  So the result of a rank is the
reduction over its contributors, and it is the full reduction at every rank if
and only if the world size is a power of two (`fullMesh_allReduce_iff`).
-/
import MiniCcl.MeshSchedule

namespace MiniCcl.TopologyFullMesh

variable {α : Type*} {n : ℕ}

/-! ### One round -/

section Rounds

variable {own : ℕ → Buf} {peerBuf : Buf} (hown : ∀ r, own r ≠ peerBuf) {cnt blocks : ℕ}
  {f : α → α → α} {perform : ℕ → ℕ → RankMem α → RankMem α}
  (hperform : ∀ i r M b j, i < blocks → perform i r M b j
    = if b = own r ∧ i * cnt ≤ j ∧ j < i * cnt + cnt then f (M peerBuf j) (M b j) else M b j)

include hown hperform in
/-- Reducing block by block reduces the whole vector. -/
theorem exec_blocks {L : List ℕ} (hL : L.Nodup) (m : ℕ → RankMem α) {B : ℕ} (hB : B ≤ blocks)
    {r : ℕ} (hr : r ∈ L) (b : Buf) (j : ℕ) :
    Script.exec ((List.range B).flatMap fun i => Script.locals L (perform i)) m r b j
      = if b = own r ∧ j < B * cnt then f (m r peerBuf j) (m r b j) else m r b j := by
  induction B generalizing b j with
  | zero => simp
  | succ B ih =>
      have hmul : (B + 1) * cnt = B * cnt + cnt := Nat.succ_mul B cnt
      have hpeer : Script.exec ((List.range B).flatMap fun i => Script.locals L (perform i)) m r
          peerBuf j = m r peerBuf j := by
        rw [ih (by omega), if_neg fun h => hown r h.1.symm]
      rw [List.range_succ, List.flatMap_append, List.flatMap_singleton, Script.exec_append,
        Script.exec_locals hL, if_pos hr, hperform _ _ _ _ _ (by omega), hpeer,
        ih (by omega)]
      by_cases hb : b = own r
      · subst hb
        rcases lt_or_ge j (B * cnt) with hlt | hge
        · -- a block that was reduced before
          rw [if_neg (by omega), if_pos ⟨rfl, hlt⟩, if_pos ⟨rfl, by omega⟩]
        · have hout : ¬ (own r = own r ∧ j < B * cnt) := fun h => by omega
          rw [if_neg hout]
          simp only [hge, hmul, true_and]
      · rw [if_neg fun h => hb h.1, if_neg fun h => hb h.1, if_neg fun h => hb h.1]

include hown hperform in
/-- **A doubling round** combines the vector of the partner into one's own. -/
theorem exec_doublingStep {mask : ℕ} (w : ℕ) (m : ℕ → RankMem α) {r j : ℕ} (hr : r < n)
    (hj : j < blocks * cnt) :
    Script.exec (doublingStep n w (fun r => ⟨own r, 0, blocks * cnt⟩)
        (fun _ => ⟨peerBuf, 0, blocks * cnt⟩) perform blocks mask) m r (own r) j
      = if r ^^^ mask < n then f (m (r ^^^ mask) (own (r ^^^ mask)) j) (m r (own r) j)
        else m r (own r) j := by
  have hnodup : ((paired n mask).map (· ^^^ mask)).Nodup := by
    refine (nodup_paired n mask).map fun p q h => ?_
    rw [← xor_mask_cancel p mask, ← xor_mask_cancel q mask]
    exact congrArg (· ^^^ mask) h
  obtain ⟨hin, hout⟩ := Script.exec_hops hnodup (s := fun r => ⟨own r, 0, blocks * cnt⟩)
    (d := fun _ => ⟨peerBuf, 0, blocks * cnt⟩)
    (fun q _ => Slice.disjoint_of_buf_ne (hown q)) w m
  rw [doublingStep, Script.exec_append]
  by_cases hpeer : r ^^^ mask < n
  · have hmem : r ∈ paired n mask := mem_paired.mpr ⟨hr, hpeer⟩
    have hmem' : r ^^^ mask ∈ paired n mask := by
      rw [mem_paired, xor_mask_cancel]
      exact ⟨hpeer, hr⟩
    have hhop := hin _ hmem'
    simp only [xor_mask_cancel] at hhop
    have hlen : (⟨own (r ^^^ mask), 0, blocks * cnt⟩ : Slice Buf).len
        = (⟨peerBuf, 0, blocks * cnt⟩ : Slice Buf).len := rfl
    have hhas : (⟨peerBuf, 0, blocks * cnt⟩ : Slice Buf).Has peerBuf j :=
      ⟨rfl, Nat.zero_le j, by simp only; omega⟩
    rw [exec_blocks hown hperform (nodup_paired n mask) _ le_rfl hmem, if_pos ⟨rfl, hj⟩,
      if_pos hpeer, hhop, Mem.write_read_apply _ _ hlen, if_pos hhas,
      Mem.write_of_not_has fun h => hown r h.1]
    simp only [Nat.zero_add, Nat.sub_zero]
  · have hnot : r ∉ paired n mask := fun h => hpeer (mem_paired.mp h).2
    have hskip : r ∉ (paired n mask).map (· ^^^ mask) := by
      rw [List.mem_map]
      rintro ⟨q, hq, rfl⟩
      exact hpeer (by rw [xor_mask_cancel]; exact (mem_paired.mp hq).1)
    have hkeep : ∀ (B : ℕ) (m : ℕ → RankMem α), Script.exec
        ((List.range B).flatMap fun i => Script.locals (paired n mask) (perform i)) m r
          = m r := by
      intro B m
      induction B with
      | zero => rfl
      | succ B ih =>
          rw [List.range_succ, List.flatMap_append, List.flatMap_singleton, Script.exec_append,
            Script.exec_locals (nodup_paired n mask), if_neg hnot, ih]
    rw [hkeep, hout r hskip, if_neg hpeer]

include hown hperform in
/-- The first `K` rounds are recursive doubling. -/
theorem exec_doubling (w : ℕ) (m : ℕ → RankMem α) (K : ℕ) {r j : ℕ} (hr : r < n)
    (hj : j < blocks * cnt) :
    Script.exec (((List.range K).map (2 ^ ·)).flatMap
        (doublingStep n w (fun r => ⟨own r, 0, blocks * cnt⟩)
          (fun _ => ⟨peerBuf, 0, blocks * cnt⟩) perform blocks)) m r (own r) j
      = doublingFold f n (fun q => m q (own q) j) K r := by
  rw [List.flatMap_map]
  induction K generalizing r with
  | zero => rfl
  | succ K ih =>
      rw [List.range_succ, List.flatMap_append, List.flatMap_singleton, Script.exec_append,
        exec_doublingStep hown hperform w _ hr hj, doublingFold, ih hr]
      by_cases hpeer : r ^^^ 2 ^ K < n
      · rw [if_pos hpeer, if_pos hpeer, ih hpeer]
      · rw [if_neg hpeer, if_neg hpeer]

end Rounds

/-! ### The results of the calls -/

section Result

variable (sendBuf recvBuf : ℕ → Buf) {count w : ℕ} (red : Reducer α) (m : ℕ → RankMem α)

/-- `AllReduce` after its first `K` rounds. -/
theorem exec_allReduceRounds (hrecv : ∀ r, recvBuf r ≠ .tempBuffer) (K : ℕ) {r i : ℕ}
    (hr : r < n) (hi : i < count) :
    Script.exec (Script.locals (List.range n) (fun r m =>
        m.copy (recvBuf r) 0 (sendBuf r) 0 count) ++
      ((List.range K).map (2 ^ ·)).flatMap (doublingStep n w (fun r => ⟨recvBuf r, 0, count⟩)
        (fun _ => ⟨.tempBuffer, 0, count⟩)
        (fun _ r => red.perform ⟨.tempBuffer, 0⟩ ⟨recvBuf r, 0⟩ count) 1)) m r (recvBuf r) i
      = doublingFold red.combine n (fun q => m q (sendBuf q) i) K r := by
  have hperform : ∀ k r M b j, k < 1 → red.perform ⟨.tempBuffer, 0⟩ ⟨recvBuf r, 0⟩ count M b j
      = if b = recvBuf r ∧ k * count ≤ j ∧ j < k * count + count
        then red.combine (M .tempBuffer j) (M b j) else M b j := by
    intro k r M b j hk
    obtain rfl : k = 0 := by omega
    rw [red.perform_apply (hrecv r).symm]
    simp only [Nat.zero_mul, Nat.zero_add, Nat.sub_zero]
  have hdoubling := exec_doubling (n := n) hrecv hperform w
    (Script.exec (Script.locals (List.range n) fun r m =>
      m.copy (recvBuf r) 0 (sendBuf r) 0 count) m) K hr (j := i) (by omega)
  simp only [Nat.one_mul] at hdoubling
  rw [Script.exec_append, hdoubling]
  refine doublingFold_congr (fun q hq => ?_) hr
  rw [Script.exec_locals_range _ _ hq, Mem.copy_start _ hi, if_pos rfl, Nat.zero_add]

theorem exec_allReduceScript (hrecv : ∀ r, recvBuf r ≠ .tempBuffer) {r i : ℕ} (hr : r < n)
    (hi : i < count) :
    Script.exec (allReduceScript n count w sendBuf recvBuf red) m r (recvBuf r) i
      = doublingFold red.combine n (fun q => m q (sendBuf q) i) (Nat.clog 2 n) r := by
  rw [allReduceScript, masks_eq]
  exact exec_allReduceRounds sendBuf recvBuf red m hrecv _ hr hi

/-- `ReduceScatter` after its first `K` rounds, on the whole data. -/
theorem exec_reduceScatterRounds (K : ℕ) {r j : ℕ} (hr : r < n) (hj : j < n * count) :
    Script.exec (Script.locals (List.range n) (fun r m =>
        m.copy .tempRecvbuf 0 (sendBuf r) 0 (count * n)) ++
      ((List.range K).map (2 ^ ·)).flatMap
        (doublingStep n w (fun _ => ⟨.tempRecvbuf, 0, count * n⟩)
          (fun _ => ⟨.tempBuf, 0, count * n⟩)
          (fun i _ => red.perform ⟨.tempBuf, i * count⟩ ⟨.tempRecvbuf, i * count⟩ count) n))
      m r .tempRecvbuf j
      = doublingFold red.combine n (fun q => m q (sendBuf q) j) K r := by
  have hown : ∀ _ : ℕ, Buf.tempRecvbuf ≠ .tempBuf := fun _ => by decide
  have hperform : ∀ (k _ : ℕ) (M : RankMem α) b j, k < n →
      red.perform ⟨.tempBuf, k * count⟩ ⟨.tempRecvbuf, k * count⟩ count M b j
        = if b = .tempRecvbuf ∧ k * count ≤ j ∧ j < k * count + count
          then red.combine (M .tempBuf j) (M b j) else M b j := by
    intro k _ M b j hk
    have hbuf : (⟨.tempBuf, k * count⟩ : Ptr).buf ≠ (⟨.tempRecvbuf, k * count⟩ : Ptr).buf :=
      Buf.noConfusion
    rw [red.perform_apply hbuf]
    by_cases hin : b = .tempRecvbuf ∧ k * count ≤ j ∧ j < k * count + count
    · rw [if_pos hin, if_pos hin, Nat.add_sub_cancel' hin.2.1]
    · rw [if_neg hin, if_neg hin]
  rw [Script.exec_append, Nat.mul_comm count n, exec_doubling (n := n) hown hperform w _ K hr hj]
  refine doublingFold_congr (fun q hq => ?_) hr
  rw [Script.exec_locals_range _ _ hq, Mem.copy_start _ hj, if_pos rfl, Nat.zero_add]

theorem exec_reduceScatterScript {r i : ℕ} (hr : r < n) (hi : i < count) :
    Script.exec (reduceScatterScript n count w sendBuf recvBuf red) m r (recvBuf r) i
      = doublingFold red.combine n (fun q => m q (sendBuf q) (r * count + i)) (Nat.clog 2 n)
        r := by
  have hblock : r * count + i < n * count := Slice.block_lt hr hi
  rw [reduceScatterScript, ← List.append_assoc, Script.exec_append,
    Script.exec_locals_range _ _ hr, Mem.copy_start _ hi, if_pos rfl, masks_eq]
  exact exec_reduceScatterRounds sendBuf red m _ hr hblock

end Result

section Runs

variable {sendBuf recvBuf : ℕ → ℕ} {count : ℕ} {dtype : DataType} {red : Reducer α}
  {m : ℕ → RankMem α} {s : Fifo ℕ Buf α}

/-- The result of every completed run of `AllReduce`. -/
theorem allReduce_of_completed (hn : 1 ≤ n)
    (hs : Fifo.step.Reaches
      (Fifo.init (callTeam n (.allReduce sendBuf recvBuf count dtype red)) m) s)
    (hdone : ∀ r < n, (s.node r).Finished) {r i : ℕ} (hr : r < n) (hi : i < count) :
    (s.node r).mem (.user (recvBuf r)) i
      = doublingFold red.combine n (fun q => m q (.user (sendBuf q)) i) (Nat.clog 2 n) r := by
  rw [mem_of_completed hn hs hdone trivial]
  exact exec_allReduceScript (userBuf sendBuf) (userBuf recvBuf) red m
    (fun r => Buf.noConfusion) hr hi

/-- The result of every completed run of `ReduceScatter`. -/
theorem reduceScatter_of_completed (hn : 1 ≤ n)
    (hs : Fifo.step.Reaches
      (Fifo.init (callTeam n (.reduceScatter sendBuf recvBuf count dtype red)) m) s)
    (hdone : ∀ r < n, (s.node r).Finished) {r i : ℕ} (hr : r < n) (hi : i < count) :
    (s.node r).mem (.user (recvBuf r)) i
      = doublingFold red.combine n (fun q => m q (.user (sendBuf q)) (r * count + i))
        (Nat.clog 2 n) r := by
  rw [mem_of_completed hn hs hdone trivial]
  exact exec_reduceScatterScript (userBuf sendBuf) (userBuf recvBuf) red m hr hi

end Runs

/-! ### When the results are the full reductions -/

section Correct

variable {w : ℕ} (n : ℕ) (op : ReduceOp) (count : ℕ) (dtype : DataType)

/-- Every completed run of `AllReduce` leaves the reduction over all ranks on
every rank. -/
def AllReduceCorrect (w : ℕ) : Prop :=
  ∀ (sendBuf recvBuf : ℕ → ℕ) (m : ℕ → RankMem (BitVec w)) (s : Fifo ℕ Buf (BitVec w)),
    Fifo.step.Reaches (Fifo.init
      (callTeam n (.allReduce sendBuf recvBuf count dtype (.performReduce op n))) m) s →
    (∀ r < n, (s.node r).Finished) → ∀ r < n, ∀ i < count,
      IsReduction op (Finset.range n) (fun q => m q (.user (sendBuf q)) i)
        ((s.node r).mem (.user (recvBuf r)) i)

/-- Every completed run of `ReduceScatter` leaves the reduction of block `r` on
rank `r`. -/
def ReduceScatterCorrect (w : ℕ) : Prop :=
  ∀ (sendBuf recvBuf : ℕ → ℕ) (m : ℕ → RankMem (BitVec w)) (s : Fifo ℕ Buf (BitVec w)),
    Fifo.step.Reaches (Fifo.init
      (callTeam n (.reduceScatter sendBuf recvBuf count dtype (.performReduce op n))) m) s →
    (∀ r < n, (s.node r).Finished) → ∀ r < n, ∀ i < count,
      IsReduction op (Finset.range n) (fun q => m q (.user (sendBuf q)) (r * count + i))
        ((s.node r).mem (.user (recvBuf r)) i)

end Correct

section Iff

variable {n w : ℕ} {op : ReduceOp} (hop : op ≠ .avg) (count : ℕ) (dtype : DataType)
include hop

/-- The value of recursive doubling is the reduction over all ranks if they all
contribute. -/
theorem isReduction_two_pow {K : ℕ} (x : ℕ → BitVec w) {r : ℕ} (hr : r < 2 ^ K) :
    IsReduction op (Finset.range (2 ^ K)) x
      (doublingFold (reduceElem op) (2 ^ K) x (Nat.clog 2 (2 ^ K)) r) := by
  have hred := isReduction_doublingFold hop x K hr
  rw [contributors_two_pow hr] at hred
  rwa [Nat.clog_pow 2 K (by decide)]

/-- A world size that is not a power of two has inputs on which some rank does not
get the reduction over all ranks. -/
theorem exists_not_isReduction (hw : 2 ≤ w) (hn : 1 ≤ n) (hpow : ¬ ∃ k, n = 2 ^ k) :
    ∃ (x : ℕ → BitVec w) (r : ℕ), r < n ∧
      ¬ IsReduction op (Finset.range n) x
        (doublingFold (reduceElem op) n x (Nat.clog 2 n) r) := by
  obtain ⟨K, hK, hlo, hhi⟩ := exists_between_two_pow hn hpow
  obtain ⟨x, hx⟩ := IsReduction.exists_separating hop hw
    (two_pow_not_mem_contributors hlo hhi) (Finset.mem_range.mpr hlo)
  have hpos := Nat.two_pow_pos K
  refine ⟨x, n - 2 ^ K, by omega, ?_⟩
  rw [hK]
  exact hx _ (isReduction_doublingFold hop x (K + 1) (by omega))

/-- `AllReduce` is correct for the powers of two only. -/
theorem allReduceCorrect_iff (hw : 2 ≤ w) (hn : 1 ≤ n) :
    AllReduceCorrect n op count dtype w ↔ (∃ k, n = 2 ^ k) ∨ count = 0 := by
  constructor
  · intro h
    by_contra hcond
    obtain ⟨hpow, hcount⟩ := not_or.mp hcond
    obtain ⟨x, r, hr, hx⟩ := exists_not_isReduction hop hw hn hpow
    obtain ⟨s, hs, hdone⟩ := exists_completed hn (c := .allReduce id id count dtype
      (.performReduce op n)) trivial fun q _ _ => x q
    have hred := h id id _ s hs hdone r hr 0 (Nat.pos_of_ne_zero hcount)
    rw [allReduce_of_completed hn hs hdone hr (Nat.pos_of_ne_zero hcount),
      combine_performReduce hop] at hred
    exact hx hred
  · rintro (⟨K, rfl⟩ | rfl) sendBuf recvBuf m s hs hdone r hr i hi
    · rw [allReduce_of_completed hn hs hdone hr hi, combine_performReduce hop]
      exact isReduction_two_pow hop _ hr
    · exact absurd hi (Nat.not_lt_zero i)

/-- So is `ReduceScatter`. -/
theorem reduceScatterCorrect_iff (hw : 2 ≤ w) (hn : 1 ≤ n) :
    ReduceScatterCorrect n op count dtype w ↔ (∃ k, n = 2 ^ k) ∨ count = 0 := by
  constructor
  · intro h
    by_contra hcond
    obtain ⟨hpow, hcount⟩ := not_or.mp hcond
    obtain ⟨x, r, hr, hx⟩ := exists_not_isReduction hop hw hn hpow
    obtain ⟨s, hs, hdone⟩ := exists_completed hn (c := .reduceScatter id id count dtype
      (.performReduce op n)) trivial fun q _ _ => x q
    have hred := h id id _ s hs hdone r hr 0 (Nat.pos_of_ne_zero hcount)
    rw [reduceScatter_of_completed hn hs hdone hr (Nat.pos_of_ne_zero hcount),
      combine_performReduce hop] at hred
    exact hx hred
  · rintro (⟨K, rfl⟩ | rfl) sendBuf recvBuf m s hs hdone r hr i hi
    · rw [reduceScatter_of_completed hn hs hdone hr hi, combine_performReduce hop]
      exact isReduction_two_pow hop _ hr
    · exact absurd hi (Nat.not_lt_zero i)

/-- **`AllReduce` and `ReduceScatter` on the full mesh are correct if and only if
the world size is a power of two** (or there is nothing to reduce). -/
theorem fullMesh_allReduce_iff (hw : 2 ≤ w) (hn : 1 ≤ n) :
    (AllReduceCorrect n op count dtype w ↔ (∃ k, n = 2 ^ k) ∨ count = 0) ∧
      (ReduceScatterCorrect n op count dtype w ↔ (∃ k, n = 2 ^ k) ∨ count = 0) :=
  ⟨allReduceCorrect_iff hop count dtype hw hn, reduceScatterCorrect_iff hop count dtype hw hn⟩

end Iff

/-- Four ranks. -/
theorem fullMesh_allReduce_iff_four :
    (AllReduceCorrect 4 .max 10 .int64 64 ↔ (∃ k, 4 = 2 ^ k) ∨ 10 = 0) ∧
      (ReduceScatterCorrect 4 .max 10 .int64 64 ↔ (∃ k, 4 = 2 ^ k) ∨ 10 = 0) :=
  fullMesh_allReduce_iff (by decide) 10 .int64 (by decide) (by decide)

/-- Three ranks that contribute 0, 0 and 1: rank 1 has no partner in the second
round and misses the contribution of rank 2. -/
theorem fullMesh_allReduce_misses_three :
    ¬ (AllReduceCorrect 3 .sum 1 .int32 32 ∧ ReduceScatterCorrect 3 .sum 1 .int32 32) := by
  rintro ⟨h, -⟩
  obtain ⟨s, hs, hdone⟩ := exists_completed (n := 3) (by decide)
    (c := .allReduce id id 1 .int32 (Reducer.performReduce (w := 32) .sum 3)) trivial
    fun q _ _ => if q = 2 then 1 else 0
  have hred := h id id _ s hs hdone 1 (by decide) 0 (by decide)
  rw [allReduce_of_completed (by decide) hs hdone (by decide) (by decide),
    combine_performReduce (by decide)] at hred
  have hsum : doublingFold (reduceElem .sum) 3 (fun q => if q = 2 then 1#32 else 0)
      (Nat.clog 2 3) 1 = ∑ q ∈ Finset.range 3, if q = 2 then 1#32 else 0 := hred
  exact absurd hsum (by decide)

end MiniCcl.TopologyFullMesh
