/-
MiniCcl/MeshBlocks.lean

What the collectives of the full mesh compute that move data without changing it.

Every rank has a transport to every other rank, so no data passes through a third
one: `Broadcast`, `Gather` and `Scatter` are stars, `AllGather` and `AllToAll`
exchanges between all pairs, and in all of them the transfers are apart.  A block of
a rank's own is copied before the first transfer.
-/
import MiniCcl.MeshSchedule
import MiniCcl.Transfers

namespace MiniCcl.TopologyFullMesh

variable {α : Type*} {n root count : ℕ}

/-! ### Stars -/

section Stars

variable (w : ℕ) (m : ℕ → RankMem α) {r i : ℕ}

/-- **`Broadcast`** leaves the root's buffer on every rank. -/
theorem exec_broadcastScript (buffer : ℕ → Buf) (hr : r < n) (hi : i < count) :
    Script.exec (broadcastScript n count w root buffer) m r (buffer r) i
      = m root (buffer root) i := by
  have hexec := Script.exec_outward (not_mem_peersOf n root) (s := fun _ => ⟨buffer root, 0, count⟩)
    (d := fun p => ⟨buffer p, 0, count⟩) (w := w) (fun _ _ => rfl) m r
  rw [broadcastScript, hexec]
  by_cases hrt : r = root
  · subst hrt
    rw [if_neg (not_mem_peersOf n r)]
  · rw [if_pos (mem_peersOf.mpr ⟨hr, hrt⟩), Mem.write_start _ _ hi, if_pos rfl, Nat.zero_add]

variable {sendBuf recvBuf : ℕ → Buf}

/-- **`Gather`** leaves the block of every rank at its place. -/
theorem exec_gatherScript (hr : r < n) (hi : i < count) :
    Script.exec (gatherScript n count w root sendBuf recvBuf) m root (recvBuf root)
        (r * count + i)
      = m r (sendBuf r) i := by
  let s : ℕ → Slice Buf := fun p => ⟨sendBuf p, 0, count⟩
  let d : ℕ → Slice Buf := fun p => ⟨recvBuf root, p * count, count⟩
  have hapart : Script.Apart (fun q p => p = root ∧ q ∈ peersOf n root) (fun q _ => s q)
      (fun _ q => d q) :=
    Script.apart_inward (not_mem_peersOf n root) (fun _ _ => rfl)
      fun p _ q _ hne => Slice.disjoint_block hne _ _ _
  rw [gatherScript, Script.exec_cons]
  by_cases hrt : r = root
  · subst hrt
    rw [Script.exec_transfers_of_not_has Script.transfers_inward, Event.exec,
      Function.update_self, Mem.copy_block _ hi, if_pos ⟨rfl, rfl⟩, Nat.zero_add]
    rintro q ⟨-, hq⟩ hhas
    exact (mem_peersOf.mp hq).2 ((Slice.has_block hi).mp hhas).2.symm
  · have hmem : r ∈ peersOf n root := mem_peersOf.mpr ⟨hr, hrt⟩
    refine (Script.exec_transfers Script.transfers_inward hapart ⟨rfl, hmem⟩
      ((Slice.has_block hi).mpr ⟨rfl, rfl⟩) _).trans ?_
    rw [Event.exec, Function.update_of_ne hrt, Nat.add_sub_cancel_left, Nat.zero_add]

/-- The blocks are sent after the root has copied its own. -/
theorem exec_scatterScript_eq (r : ℕ) :
    Script.exec (scatterScript n count w root sendBuf recvBuf) m r
      = if r = root then (m root).copy (recvBuf root) 0 (sendBuf root) (root * count) count
        else if r < n then (m r).write ⟨recvBuf r, 0, count⟩
          (((m root).copy (recvBuf root) 0 (sendBuf root) (root * count) count).read
            ⟨sendBuf root, r * count, count⟩)
        else m r := by
  have hexec := Script.exec_outward (not_mem_peersOf n root)
    (s := fun p => ⟨sendBuf root, p * count, count⟩) (d := fun p => ⟨recvBuf p, 0, count⟩) (w := w)
    (fun _ _ => rfl) (Event.exec (.act root fun m =>
      m.copy (recvBuf root) 0 (sendBuf root) (root * count) count) m) r
  rw [scatterScript, Script.exec_cons, hexec, Event.exec, Function.update_self]
  by_cases hrt : r = root
  · subst hrt
    rw [if_neg (not_mem_peersOf n r), if_pos rfl, Function.update_self]
  · simp only [mem_peersOf, hrt, ne_eq, not_false_eq_true, and_true, if_false,
      Function.update_of_ne hrt]

/-- **`Scatter`** leaves each rank with its block of what the root holds in the end,
also if the root scatters in place. -/
theorem exec_scatterScript_self (hr : r < n) (hi : i < count) :
    Script.exec (scatterScript n count w root sendBuf recvBuf) m r (recvBuf r) i
      = Script.exec (scatterScript n count w root sendBuf recvBuf) m root (sendBuf root)
        (r * count + i) := by
  rw [exec_scatterScript_eq, exec_scatterScript_eq, if_pos rfl]
  by_cases hrt : r = root
  · subst hrt
    rw [if_pos rfl, Mem.copy_start_eq _ _ _ hi]
  · rw [if_neg hrt, if_pos hr, Mem.write_start _ _ hi, if_pos rfl]

/-- The root's data is left as it was, unless the root scatters in place. -/
theorem exec_scatterScript_root (hne : recvBuf root ≠ sendBuf root) (j : ℕ) :
    Script.exec (scatterScript n count w root sendBuf recvBuf) m root (sendBuf root) j
      = m root (sendBuf root) j := by
  rw [exec_scatterScript_eq, if_pos rfl, Mem.copy_of_ne _ hne.symm]

end Stars

/-! ### Exchanges -/

section Exchanges

theorem transfers_exchanges (w : ℕ) (s d : ℕ → ℕ → Slice Buf) :
    Script.Transfers (α := α) (fun q p => q < n ∧ p < n ∧ q ≠ p) s d w (exchanges n w s d) := by
  intro e
  simp only [exchanges, exchange, List.mem_flatMap, List.mem_range, List.mem_range'_1,
    List.mem_cons, List.not_mem_nil, or_false]
  constructor
  · rintro ⟨a, ha, b, ⟨hlo, hhi⟩, rfl | rfl⟩
    · exact ⟨a, b, ⟨ha, by omega, by omega⟩, rfl⟩
    · exact ⟨b, a, ⟨by omega, ha, by omega⟩, rfl⟩
  · rintro ⟨q, p, ⟨hq, hp, hne⟩, rfl⟩
    rcases lt_or_gt_of_ne hne with hlt | hgt
    · exact ⟨q, hq, p, by omega, .inl rfl⟩
    · exact ⟨p, hp, q, by omega, .inr rfl⟩

variable {sendBuf recvBuf : ℕ → Buf} (hne : ∀ r < n, sendBuf r ≠ recvBuf r) (w : ℕ)
  (m : ℕ → RankMem α) {r c i : ℕ} (hr : r < n) (hc : c < n) (hi : i < count)
include hne hr hc hi

/-- After the exchanges every rank has block `c` of rank `c`'s data for it; its own it
had before. -/
theorem exec_exchanges (off : ℕ → ℕ) :
    Script.exec (exchanges n w (fun r p => ⟨sendBuf r, off p, count⟩)
        fun r p => ⟨recvBuf r, p * count, count⟩) m r (recvBuf r) (c * count + i)
      = if c = r then m r (recvBuf r) (c * count + i) else m c (sendBuf c) (off r + i) := by
  have htransfers := transfers_exchanges (α := α) (n := n) w
    (fun r p => ⟨sendBuf r, off p, count⟩) fun r p => ⟨recvBuf r, p * count, count⟩
  have hapart : Script.Apart (fun q p => q < n ∧ p < n ∧ q ≠ p)
      (fun r p => (⟨sendBuf r, off p, count⟩ : Slice Buf))
      fun r p => ⟨recvBuf r, p * count, count⟩ := by
    refine ⟨fun _ _ _ => rfl, fun q p q' h _ => ?_, fun q q' p _ _ hqq' => ?_⟩
    · exact Slice.disjoint_of_buf_ne (hne q h.1)
    · exact Slice.disjoint_block hqq' _ _ _
  by_cases hcr : c = r
  · subst hcr
    rw [if_pos rfl, Script.exec_transfers_of_not_has htransfers]
    rintro q ⟨-, -, hqc⟩ hhas
    exact hqc ((Slice.has_block hi).mp hhas).2.symm
  · rw [if_neg hcr, Script.exec_transfers htransfers hapart ⟨hc, hr, hcr⟩
      ((Slice.has_block hi).mpr ⟨rfl, rfl⟩), Nat.add_sub_cancel_left]

/-- With the copy of its own block before them, every rank has all blocks. -/
theorem exec_copy_exchanges (off : ℕ → ℕ) :
    Script.exec (Script.locals (List.range n) (fun r m =>
        m.copy (recvBuf r) (r * count) (sendBuf r) (off r) count) ++
      exchanges n w (fun r p => ⟨sendBuf r, off p, count⟩)
        fun r p => ⟨recvBuf r, p * count, count⟩) m r (recvBuf r) (c * count + i)
      = m c (sendBuf c) (off r + i) := by
  rw [Script.exec_append, exec_exchanges hne w _ hr hc hi]
  by_cases hcr : c = r
  · subst hcr
    rw [if_pos rfl, Script.exec_locals_range _ _ hc, Mem.copy_block _ hi, if_pos ⟨rfl, rfl⟩]
  · rw [if_neg hcr, Script.exec_locals_range _ _ hc, Mem.copy_of_ne _ (hne c hc)]

/-- **`AllGather`** leaves every block on every rank. -/
theorem exec_allGatherScript :
    Script.exec (allGatherScript n count w sendBuf recvBuf) m r (recvBuf r) (c * count + i)
      = m c (sendBuf c) i := by
  have hexec := exec_copy_exchanges hne w m hr hc hi fun _ => 0
  rwa [Nat.zero_add] at hexec

/-- **`AllToAll`** transposes the blocks. -/
theorem exec_allToAllScript :
    Script.exec (allToAllScript n count w sendBuf recvBuf) m r (recvBuf r) (c * count + i)
      = m c (sendBuf c) (r * count + i) :=
  exec_copy_exchanges hne w m hr hc hi fun p => p * count

end Exchanges

end MiniCcl.TopologyFullMesh
