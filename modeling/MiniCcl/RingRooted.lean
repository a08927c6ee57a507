/-
MiniCcl/RingRooted.lean

What `Reduce` and `Scatter` on the ring compute, and `ReduceScatter`, which is
one after the other.

In `Reduce` the value that a rank sends on is the chain fold of the inputs from
the last position down to its own; the root completes it.  In `Scatter` a block
passes unchanged through the `temp` of the ranks on its way.
-/
import MiniCcl.Reduction
import MiniCcl.RingSchedule

namespace MiniCcl.TopologyRing

variable {α : Type*} {n root count : ℕ}

/-! ### Reduce -/

section Reduce

variable (sendBuf recvBuf : ℕ → Buf) (red : Reducer α) (m : ℕ → RankMem α)

/-- The memories after each rank has copied its input. -/
def reduceStart (n root count : ℕ) : ℕ → RankMem α :=
  Script.exec (Script.locals (List.range n) fun r m =>
    if r = root then m.copy (recvBuf r) 0 (sendBuf r) 0 count
    else m.copy .tempBuffer 0 (sendBuf r) 0 count) m

theorem reduceStart_apply (root : ℕ) {r i : ℕ} (hr : r < n) (hi : i < count) :
    reduceStart sendBuf recvBuf m n root count r
        (if r = root then recvBuf r else .tempBuffer) i = m r (sendBuf r) i := by
  rw [reduceStart, Script.exec_locals_range _ _ hr]
  by_cases hroot : r = root
  · rw [if_pos hroot, if_pos hroot, Mem.copy_start _ hi, if_pos rfl, Nat.zero_add]
  · rw [if_neg hroot, if_neg hroot, Mem.copy_start _ hi, if_pos rfl, Nat.zero_add]

variable {recvRoot : Buf}

/-- On its way to the root the value is the chain fold of the inputs so far. -/
theorem chainMem_reduce {m₀ : ℕ → RankMem α} {x : ℕ → α} {i : ℕ} (hi : i < count)
    (hx : ∀ p < n - 1, m₀ (rankFrom n root p) .tempBuffer i = x p) {p : ℕ} (hp : p < n - 1) :
    Script.chainMem (rankFrom n root) (fun _ => ⟨.tempBuffer, 0, count⟩) (reduceSlot n count)
        (reduceActs n count recvRoot red) m₀ p .tempBuffer i
      = chainFold red.combine x p := by
  induction p with
  | zero => exact hx 0 hp
  | succ p ih =>
      have hslot : reduceSlot n count (p + 1) = ⟨.recvTemp, 0, count⟩ := if_neg (by omega)
      have hacts : reduceActs n count recvRoot red (p + 1)
          = [red.perform ⟨.recvTemp, 0⟩ ⟨.tempBuffer, 0⟩ count] := if_neg (by omega)
      rw [Script.chainMem, hslot, hacts, List.foldl_cons, List.foldl_nil,
        red.perform_received _ _ Buf.noConfusion _ hi, hx (p + 1) hp, ih (by omega), chainFold]

/-- The root adds its own input. -/
theorem chainMem_reduce_root (hn : 2 ≤ n) (hrecv : recvRoot ≠ .tempBuffer)
    {m₀ : ℕ → RankMem α} {x : ℕ → α} {i : ℕ} (hi : i < count)
    (hx : ∀ p < n - 1, m₀ (rankFrom n root p) .tempBuffer i = x p)
    (hroot : m₀ (rankFrom n root (n - 1)) recvRoot i = x (n - 1)) :
    Script.chainMem (rankFrom n root) (fun _ => ⟨.tempBuffer, 0, count⟩) (reduceSlot n count)
        (reduceActs n count recvRoot red) m₀ (n - 1) recvRoot i
      = chainFold red.combine x (n - 1) := by
  obtain ⟨p, hp⟩ : ∃ p, n - 1 = p + 1 := ⟨n - 2, by omega⟩
  have hslot : reduceSlot n count (p + 1) = ⟨.tempBuffer, 0, count⟩ := if_pos hp.symm
  have hacts : reduceActs n count recvRoot red (p + 1)
      = [red.perform ⟨.tempBuffer, 0⟩ ⟨recvRoot, 0⟩ count] := if_pos hp.symm
  rw [hp] at hroot ⊢
  rw [Script.chainMem, hslot, hacts, List.foldl_cons, List.foldl_nil,
    red.perform_received _ _ hrecv.symm _ hi, hroot, chainMem_reduce red hi hx (by omega),
    chainFold]

/-- **`Reduce`** leaves the chain fold from the last position to the root. -/
theorem exec_reduceScript (hn : 2 ≤ n) (hroot : root < n) (w : ℕ)
    (hrecv : recvBuf root ≠ .tempBuffer) {i : ℕ} (hi : i < count) :
    Script.exec (reduceScript n count w root sendBuf recvBuf red) m root (recvBuf root) i
      = chainFold red.combine
        (fun p => m (rankFrom n root p) (sendBuf (rankFrom n root p)) i) (n - 1) := by
  have hfrom : rankFrom n root (n - 1) = root := by
    rw [rankFrom, Nat.sub_self, rankAt_zero hroot]
  have hne : ∀ p < n - 1, rankFrom n root p ≠ root := by
    intro p hp h
    have := rankFrom_inj hroot (by omega) (by omega) (h.trans hfrom.symm)
    omega
  have hlt : ∀ p, rankFrom n root p < n := fun p => rankAt_lt (by omega) _
  have hexec := (Script.exec_chain (rankFrom_inj hroot) (fun _ => ⟨.tempBuffer, 0, count⟩)
    (reduceSlot n count) w (reduceActs n count (recvBuf root) red)
    (Nat.sub_lt_self one_pos (by omega)) (reduceStart sendBuf recvBuf m n root count)).1
    (n - 1) (by omega)
  rw [if_pos le_rfl, hfrom] at hexec
  rw [reduceScript, Script.exec_append]
  refine (congrFun (congrFun hexec _) i).trans (chainMem_reduce_root red hn hrecv hi ?_ ?_)
  · intro p hp
    have hstart := reduceStart_apply sendBuf recvBuf m root (hlt p) hi
    rwa [if_neg (hne p hp)] at hstart
  · have hstart := reduceStart_apply sendBuf recvBuf m root (hlt (n - 1)) hi
    rw [if_pos hfrom, hfrom] at hstart
    rw [hfrom]
    exact hstart

end Reduce

/-! ### Scatter -/

section Scatter

variable {sendBuf recvBuf : ℕ → Buf} (m : ℕ → RankMem α)

/-- On its way a block does not change. -/
theorem chainMem_scatter (hroot : root < n) {step p i : ℕ} (hp : p < step) (hi : i < count) :
    Script.chainMem (rankAt n root) (scatterSource n count root (sendBuf root) step)
        (scatterSlot n count root recvBuf step) (fun _ => []) m p
        (scatterSource n count root (sendBuf root) step p).buf
        ((scatterSource n count root (sendBuf root) step p).off + i)
      = m root (sendBuf root) ((root + step) % n * count + i) := by
  induction p with
  | zero =>
      show m (rankAt n root 0) _ _ = _
      rw [rankAt_zero hroot]
      rfl
  | succ p ih =>
      have hslot : scatterSlot n count root recvBuf step (p + 1) = ⟨.temp, 0, count⟩ :=
        if_neg (by omega)
      have hsource : scatterSource n count root (sendBuf root) step (p + 1)
          = ⟨.temp, 0, count⟩ := if_neg (Nat.succ_ne_zero p)
      have hlen : (scatterSource n count root (sendBuf root) step p).len
          = (⟨.temp, 0, count⟩ : Slice Buf).len := by
        unfold scatterSource
        split_ifs <;> rfl
      rw [Script.chainMem, hslot, hsource, List.foldl_nil, Mem.write_read_apply _ _ hlen,
        if_pos ⟨rfl, Nat.zero_le _, by simp only; omega⟩]
      simp only [Nat.zero_add, Nat.sub_zero]
      exact ih (by omega)

variable (hroot : root < n) (w : ℕ) {step : ℕ} (hstep : step < n)
include hroot hstep

/-- A block arrives at its rank. -/
theorem exec_scatterChain (hpos : 0 < step) {i : ℕ} (hi : i < count) :
    Script.exec (scatterChain n count w root sendBuf recvBuf step) m (rankAt n root step)
        (recvBuf (rankAt n root step)) i
      = m root (sendBuf root) (rankAt n root step * count + i) := by
  obtain ⟨p, rfl⟩ : ∃ p, step = p + 1 := ⟨step - 1, by omega⟩
  have hexec := (Script.exec_chain (rankAt_inj hroot)
    (scatterSource n count root (sendBuf root) (p + 1)) (scatterSlot n count root recvBuf (p + 1))
    w (fun _ => []) hstep m).1 (p + 1) hstep
  have hslot : scatterSlot n count root recvBuf (p + 1) (p + 1)
      = ⟨recvBuf (rankAt n root (p + 1)), 0, count⟩ := if_pos rfl
  have hlen : (scatterSource n count root (sendBuf root) (p + 1) p).len
      = (⟨recvBuf (rankAt n root (p + 1)), 0, count⟩ : Slice Buf).len := by
    unfold scatterSource
    split_ifs <;> rfl
  rw [scatterChain, hexec, if_pos le_rfl, Script.chainMem, hslot, List.foldl_nil,
    Mem.write_read_apply _ _ hlen, if_pos ⟨rfl, Nat.zero_le i, by simp only; omega⟩]
  exact chainMem_scatter m hroot (Nat.lt_succ_self p) hi

/-- The other ranks only use `temp`. -/
theorem exec_scatterChain_of_ne {q : ℕ} (hq : q < n) (hne : q ≠ step) {b : Buf}
    (hb : b ≠ .temp) (i : ℕ) :
    Script.exec (scatterChain n count w root sendBuf recvBuf step) m (rankAt n root q) b i
      = m (rankAt n root q) b i := by
  have hexec := (Script.exec_chain (rankAt_inj hroot)
    (scatterSource n count root (sendBuf root) step) (scatterSlot n count root recvBuf step)
    w (fun _ => []) hstep m).1 q hq
  rw [scatterChain, hexec]
  by_cases hqs : q ≤ step
  · rw [if_pos hqs]
    cases q with
    | zero => rfl
    | succ q =>
        have hslot : scatterSlot n count root recvBuf step (q + 1) = ⟨.temp, 0, count⟩ :=
          if_neg hne
        rw [Script.chainMem, hslot, List.foldl_nil, Mem.write_of_not_has fun h => hb h.1]
  · rw [if_neg hqs]

end Scatter

section Scatter

variable {sendBuf recvBuf : ℕ → Buf} (hroot : root < n) (hrecv : ∀ r, recvBuf r ≠ .temp)
  (hsend : sendBuf root ≠ .temp) (w : ℕ)
include hroot hsend

/-- The root's data stays as it is while the blocks travel. -/
theorem exec_scatterChains_root (m : ℕ → RankMem α) {T : ℕ} (hT : T < n) (j : ℕ) :
    Script.exec ((List.range' 1 T).flatMap (scatterChain n count w root sendBuf recvBuf)) m
        root (sendBuf root) j
      = m root (sendBuf root) j := by
  induction T with
  | zero => rfl
  | succ T ih =>
      have hkeep : ∀ M : ℕ → RankMem α,
          Script.exec (scatterChain n count w root sendBuf recvBuf (T + 1)) M (rankAt n root 0)
            (sendBuf root) j = M (rankAt n root 0) (sendBuf root) j :=
        fun M => exec_scatterChain_of_ne M hroot w hT (by omega) (by omega) hsend j
      rw [rankAt_zero hroot] at hkeep
      rw [List.range'_1_concat, List.flatMap_append, List.flatMap_singleton, Script.exec_append,
        Nat.add_comm 1 T, hkeep, ih (by omega)]

include hrecv

/-- After the first `T` blocks, the positions up to `T` have theirs. -/
theorem exec_scatterChains (m : ℕ → RankMem α) {T : ℕ} (hT : T < n) {q : ℕ} (hq : q < n)
    {i : ℕ} (hi : i < count) :
    Script.exec ((List.range' 1 T).flatMap (scatterChain n count w root sendBuf recvBuf)) m
        (rankAt n root q) (recvBuf (rankAt n root q)) i
      = if 0 < q ∧ q ≤ T then m root (sendBuf root) (rankAt n root q * count + i)
        else m (rankAt n root q) (recvBuf (rankAt n root q)) i := by
  induction T with
  | zero =>
      rw [if_neg (by omega)]
      rfl
  | succ T ih =>
      rw [List.range'_1_concat, List.flatMap_append, List.flatMap_singleton, Script.exec_append,
        Nat.add_comm 1 T]
      by_cases hqT : q = T + 1
      · subst hqT
        rw [exec_scatterChain _ hroot w hT (Nat.succ_pos T) hi, if_pos ⟨Nat.succ_pos T, le_rfl⟩,
          exec_scatterChains_root hroot hsend w m (by omega)]
      · rw [exec_scatterChain_of_ne _ hroot w hT hq hqT (hrecv _), ih (by omega)]
        simp only [show (0 < q ∧ q ≤ T + 1) = (0 < q ∧ q ≤ T) from propext (by omega)]

/-- **`Scatter`** leaves each rank with its block of what the root holds in the end,
also if the root scatters in place. -/
theorem exec_scatterScript_self (m : ℕ → RankMem α) {r : ℕ} (hr : r < n) {i : ℕ}
    (hi : i < count) :
    Script.exec (scatterScript n count w root sendBuf recvBuf) m r (recvBuf r) i
      = Script.exec (scatterScript n count w root sendBuf recvBuf) m root (sendBuf root)
        (r * count + i) := by
  obtain ⟨q, hq, rfl⟩ := exists_rankAt hroot hr
  rw [scatterScript, Script.exec_cons,
    exec_scatterChains hroot hrecv hsend w _ (by omega) hq hi,
    exec_scatterChains_root hroot hsend w _ (by omega)]
  cases q with
  | zero =>
      rw [if_neg (by omega), rankAt_zero hroot, Event.exec, Function.update_self,
        Mem.copy_start_eq _ _ _ hi]
  | succ q => rw [if_pos ⟨Nat.succ_pos q, by omega⟩]

omit hrecv in
/-- The root's data is left as it was, unless the root scatters in place. -/
theorem exec_scatterScript_root (hne : recvBuf root ≠ sendBuf root) (m : ℕ → RankMem α) (j : ℕ) :
    Script.exec (scatterScript n count w root sendBuf recvBuf) m root (sendBuf root) j
      = m root (sendBuf root) j := by
  rw [scatterScript, Script.exec_cons, exec_scatterChains_root hroot hsend w _ (by omega),
    Event.exec, Function.update_self, Mem.copy_of_ne _ hne.symm]

theorem exec_scatterScript (hne : recvBuf root ≠ sendBuf root) (m : ℕ → RankMem α) {r : ℕ}
    (hr : r < n) {i : ℕ} (hi : i < count) :
    Script.exec (scatterScript n count w root sendBuf recvBuf) m r (recvBuf r) i
      = m root (sendBuf root) (r * count + i) := by
  rw [exec_scatterScript_self hroot hrecv hsend w m hr hi,
    exec_scatterScript_root hroot hsend w hne]

end Scatter

/-! ### ReduceScatter -/

/-- **`ReduceScatter`** leaves at rank `r` the chain fold of block `r` towards rank 0. -/
theorem exec_reduceScatterScript (hn : 2 ≤ n) (w : ℕ) {sendBuf recvBuf : ℕ → Buf}
    (hrecv : ∀ r, recvBuf r ≠ .temp) (hne : recvBuf 0 ≠ .reducedBuf) (red : Reducer α)
    (m : ℕ → RankMem α) {r i : ℕ} (hr : r < n) (hi : i < count) :
    Script.exec (reduceScatterScript n count w sendBuf recvBuf red) m r (recvBuf r) i
      = chainFold red.combine (fun p => m (rankFrom n 0 p) (sendBuf (rankFrom n 0 p))
          (r * count + i)) (n - 1) := by
  have hlt : r * count + i < count * n := Nat.mul_comm n count ▸ Slice.block_lt hr hi
  have hroot : 0 < n := by omega
  rw [reduceScatterScript, Script.exec_append,
    exec_scatterScript hroot hrecv Buf.noConfusion w hne _ hr hi]
  exact exec_reduceScript sendBuf (fun _ => .reducedBuf) red m hn hroot w Buf.noConfusion hlt

/-! ### The results of the calls -/

section Runs

variable {sendBuf recvBuf : ℕ → ℕ} {dtype : DataType} {red : Reducer α} {m : ℕ → RankMem α}
  {s : Fifo ℕ Buf α}

/-- The result of every completed run of `Reduce`. -/
theorem reduce_of_completed (hn : 2 ≤ n) (hroot : root < n)
    (hs : Fifo.step.Reaches
      (Fifo.init (callTeam n (.reduce sendBuf recvBuf count dtype red root)) m) s)
    (hdone : ∀ r < n, (s.node r).Finished) {i : ℕ} (hi : i < count) :
    (s.node root).mem (.user (recvBuf root)) i
      = chainFold red.combine (fun p => m (rankFrom n root p)
          (.user (sendBuf (rankFrom n root p))) i) (n - 1) := by
  rw [mem_of_completed hn hs hdone hroot]
  exact exec_reduceScript (userBuf sendBuf) (userBuf recvBuf) red m hn hroot _ Buf.noConfusion hi

/-- The result of every completed run of `ReduceScatter`. -/
theorem reduceScatter_of_completed (hn : 2 ≤ n)
    (hs : Fifo.step.Reaches
      (Fifo.init (callTeam n (.reduceScatter sendBuf recvBuf count dtype red)) m) s)
    (hdone : ∀ r < n, (s.node r).Finished) {r i : ℕ} (hr : r < n) (hi : i < count) :
    (s.node r).mem (.user (recvBuf r)) i
      = chainFold red.combine (fun p => m (rankFrom n 0 p) (.user (sendBuf (rankFrom n 0 p)))
          (r * count + i)) (n - 1) := by
  rw [mem_of_completed hn hs hdone trivial]
  exact exec_reduceScatterScript hn _ (fun _ => Buf.noConfusion) Buf.noConfusion red m hr hi

end Runs

end MiniCcl.TopologyRing
