/-
MiniCcl/RingBlocks.lean

What the collectives of the ring compute that move data without changing it.

* `Broadcast`: the buffer passes from rank to rank.
* `Gather`: each rank prepends its block to what it receives, so the rank at
  position `p` of the chain sends the blocks of the positions `p, p - 1, …, 0`.
  The root undoes the rotation.
* `AllGather`: a block goes around the ring; after `T` steps the `T` ranks that
  follow its owner have it.
* `AllToAll`: one broadcast for each rank, of which every rank keeps its block.

A rank is named by its position, `rankAt` counting from the owner of the data and
`rankFrom` towards the root.
-/
import MiniCcl.RingAllReduce
import MiniCcl.RingRooted

namespace MiniCcl.TopologyRing

variable {α : Type*} {n root count : ℕ}

/-! ### Broadcast -/

section Broadcast

variable (buffer : ℕ → Buf) (m : ℕ → RankMem α)

theorem chainMem_broadcast (hroot : root < n) (p : ℕ) {i : ℕ} (hi : i < count) :
    Script.chainMem (rankAt n root) (fun p => ⟨buffer (rankAt n root p), 0, count⟩)
        (fun p => ⟨buffer (rankAt n root p), 0, count⟩) (fun _ => []) m p
        (buffer (rankAt n root p)) i
      = m root (buffer root) i := by
  induction p with
  | zero =>
      rw [Script.chainMem, rankAt_zero hroot]
  | succ p ih =>
      rw [Script.chainMem, List.foldl_nil, Mem.write_start _ _ hi, if_pos rfl, Nat.zero_add, ih]

theorem chainMem_broadcast_of_ne (p : ℕ) {b : Buf} (hb : b ≠ buffer (rankAt n root p)) :
    Script.chainMem (rankAt n root) (fun p => ⟨buffer (rankAt n root p), 0, count⟩)
        (fun p => ⟨buffer (rankAt n root p), 0, count⟩) (fun _ => []) m p b
      = m (rankAt n root p) b := by
  cases p with
  | zero => rfl
  | succ p =>
      funext i
      rw [Script.chainMem, List.foldl_nil, Mem.write_of_not_has fun h => hb h.1]

variable (hroot : root < n) (w : ℕ) {r : ℕ} (hr : r < n)
include hroot hr

theorem exec_broadcastScript_rank (count : ℕ) : ∃ p < n, r = rankAt n root p ∧
    Script.exec (broadcastScript n count w root buffer) m r
      = Script.chainMem (rankAt n root) (fun p => ⟨buffer (rankAt n root p), 0, count⟩)
        (fun p => ⟨buffer (rankAt n root p), 0, count⟩) (fun _ => []) m p := by
  obtain ⟨p, hp, rfl⟩ := exists_rankAt hroot hr
  have hexec := (Script.exec_chain (rankAt_inj hroot)
    (fun p => ⟨buffer (rankAt n root p), 0, count⟩)
    (fun p => ⟨buffer (rankAt n root p), 0, count⟩) w (fun _ => [])
    (Nat.sub_lt_self one_pos (by omega)) m).1 p hp
  rw [if_pos (by omega)] at hexec
  exact ⟨p, hp, rfl, hexec⟩

/-- **`Broadcast`** leaves the root's buffer on every rank. -/
theorem exec_broadcastScript {i : ℕ} (hi : i < count) :
    Script.exec (broadcastScript n count w root buffer) m r (buffer r) i
      = m root (buffer root) i := by
  obtain ⟨p, hp, rfl, hexec⟩ := exec_broadcastScript_rank buffer m hroot w hr count
  rw [hexec]
  exact chainMem_broadcast buffer m hroot p hi

theorem exec_broadcastScript_of_ne {b : Buf} (hb : b ≠ buffer r) :
    Script.exec (broadcastScript n count w root buffer) m r b = m r b := by
  obtain ⟨p, hp, rfl, hexec⟩ := exec_broadcastScript_rank buffer m hroot w hr count
  rw [hexec]
  exact chainMem_broadcast_of_ne buffer m p hb

end Broadcast

/-! ### Gather -/

section Gather

variable (sendBuf recvBuf : ℕ → Buf) (m : ℕ → RankMem α)

/-- The memories after each rank has copied its block. -/
def gatherStart (n root count : ℕ) : ℕ → RankMem α :=
  Script.exec (Script.locals (List.range n) fun r m =>
    if r = root then m.copy (recvBuf r) (root * count) (sendBuf r) 0 count
    else m.copy .sendBuffer 0 (sendBuf r) 0 count) m

theorem gatherStart_root (hroot : root < n) {i : ℕ} (hi : i < count) :
    gatherStart sendBuf recvBuf m n root count root (recvBuf root) (root * count + i)
      = m root (sendBuf root) i := by
  rw [gatherStart, Script.exec_locals_range _ _ hroot, if_pos rfl, Mem.copy_block _ hi,
    if_pos ⟨rfl, rfl⟩, Nat.zero_add]

theorem gatherStart_of_ne {r : ℕ} (hr : r < n) (hne : r ≠ root) {i : ℕ} (hi : i < count) :
    gatherStart sendBuf recvBuf m n root count r .sendBuffer i = m r (sendBuf r) i := by
  rw [gatherStart, Script.exec_locals_range _ _ hr, if_neg hne, Mem.copy_start _ hi, if_pos rfl,
    Nat.zero_add]

/-- What the rank after `p` hops sends. -/
abbrev gatherSource (count p : ℕ) : Slice Buf := ⟨.sendBuffer, 0, (p + 1) * count⟩

/-- Where the rank after `p` hops receives. -/
abbrev gatherSlot (n count p : ℕ) : Slice Buf :=
  if p = n - 1 then ⟨.temp, 0, (n - 1) * count⟩ else ⟨.sendBuffer, count, p * count⟩

/-- The root puts the blocks in order. -/
abbrev gatherActs (n root count : ℕ) (recvRoot : Buf) (p : ℕ) : List (RankMem α → RankMem α) :=
  if p = n - 1 then (List.range (n - 1)).map fun i m =>
    m.copy recvRoot ((root + 1 + i) % n * count) .temp (i * count) count
  else []

variable {recvRoot : Buf}

/-- Before the root, the rank after `p` hops holds the blocks of the ranks from its own
position down to the first one. -/
theorem chainMem_gather {m₀ : ℕ → RankMem α} {x : ℕ → ℕ → α}
    (hx : ∀ p < n - 1, ∀ i < count, m₀ (rankFrom n root p) .sendBuffer i = x p i) {p : ℕ}
    (hp : p < n - 1) {q i : ℕ} (hq : q ≤ p) (hi : i < count) :
    Script.chainMem (rankFrom n root) (gatherSource count) (gatherSlot n count)
        (gatherActs n root count recvRoot) m₀ p .sendBuffer (q * count + i)
      = x (p - q) i := by
  induction p generalizing q with
  | zero =>
      obtain rfl : q = 0 := Nat.le_zero.mp hq
      rw [Script.chainMem, Nat.zero_mul, Nat.zero_add]
      exact hx 0 hp i hi
  | succ p ih =>
      have hslot : gatherSlot n count (p + 1) = ⟨.sendBuffer, count, (p + 1) * count⟩ :=
        if_neg (by omega)
      have hacts : gatherActs (α := α) n root count recvRoot (p + 1) = [] := if_neg (by omega)
      have hlen : (gatherSource count p).len
          = (⟨.sendBuffer, count, (p + 1) * count⟩ : Slice Buf).len := rfl
      rw [Script.chainMem, hslot, hacts, List.foldl_nil, Mem.write_read_apply _ _ hlen]
      cases q with
      | zero =>
          -- its own block
          rw [if_neg fun h => absurd h.2.1 (by simp only; omega), Nat.zero_mul, Nat.zero_add,
            Nat.sub_zero]
          exact hx (p + 1) hp i hi
      | succ q =>
          -- a block that it received
          have hle : (q + 1) * count ≤ (p + 1) * count := Nat.mul_le_mul_right count hq
          have hmul : (q + 1) * count = q * count + count := Nat.succ_mul q count
          have hhas : (⟨.sendBuffer, count, (p + 1) * count⟩ : Slice Buf).Has .sendBuffer
              ((q + 1) * count + i) := ⟨rfl, by simp only; omega, by simp only; omega⟩
          have hoff : (q + 1) * count + i - count = q * count + i := by omega
          rw [if_pos hhas]
          simp only [Nat.zero_add, hoff]
          rw [ih (by omega) (by omega), Nat.add_sub_add_right]

/-- At the end the root receives all blocks but its own and copies them to their
places. -/
theorem chainMem_gather_last (hn : 2 ≤ n) (m₀ : ℕ → RankMem α) :
    Script.chainMem (rankFrom n root) (gatherSource count) (gatherSlot n count)
        (gatherActs n root count recvRoot) m₀ (n - 1)
      = ((m₀ (rankFrom n root (n - 1))).write ⟨.temp, 0, (n - 1) * count⟩
          ((Script.chainMem (rankFrom n root) (gatherSource count) (gatherSlot n count)
            (gatherActs n root count recvRoot) m₀ (n - 2)).read
              ⟨.sendBuffer, 0, (n - 1) * count⟩)).copyBlocks
        recvRoot .temp count (fun q => rankAt n root (q + 1)) (n - 1) := by
  obtain ⟨p, hp⟩ : ∃ p, n - 1 = p + 1 := ⟨n - 2, by omega⟩
  have hp' : n - 2 = p := by omega
  have hslot : gatherSlot n count (p + 1) = ⟨.temp, 0, (p + 1) * count⟩ := by
    rw [gatherSlot, if_pos hp.symm, hp]
  have hacts : gatherActs (α := α) n root count recvRoot (p + 1)
      = (List.range (p + 1)).map fun q m =>
        m.copy recvRoot (rankAt n root (q + 1) * count) .temp (q * count) count := by
    rw [gatherActs, if_pos hp.symm, hp]
    simp only [rankAt, Nat.add_assoc, Nat.add_comm 1]
  rw [hp, hp', Script.chainMem, hslot, hacts, List.foldl_map, Mem.copyBlocks]

/-- **`Gather`** leaves the block of every rank at its place. -/
theorem exec_gatherScript (hn : 2 ≤ n) (hroot : root < n) (w : ℕ)
    (hrecv : recvBuf root ≠ .temp) {k i : ℕ} (hk : k < n) (hi : i < count) :
    Script.exec (gatherScript n count w root sendBuf recvBuf) m root (recvBuf root) (k * count + i)
      = m k (sendBuf k) i := by
  have hfrom : rankFrom n root (n - 1) = root := by
    rw [rankFrom, Nat.sub_self, rankAt_zero hroot]
  have hinj : Set.InjOn (fun q => rankAt n root (q + 1)) (Set.Iio (n - 1)) := by
    intro p hp q hq h
    have hp := Set.mem_Iio.mp hp
    have hq := Set.mem_Iio.mp hq
    have := rankAt_inj hroot (by omega) (by omega) h
    omega
  have hexec := (Script.exec_chain (rankFrom_inj hroot) (gatherSource count) (gatherSlot n count)
    w (gatherActs n root count (recvBuf root)) (Nat.sub_lt_self one_pos (by omega))
    (gatherStart sendBuf recvBuf m n root count)).1 (n - 1) (by omega)
  rw [if_pos le_rfl, hfrom, chainMem_gather_last hn, hfrom] at hexec
  rw [gatherScript, Script.exec_append]
  refine (congrFun (congrFun hexec _) _).trans ?_
  obtain ⟨q, hq, rfl⟩ := exists_rankAt hroot hk
  cases q with
  | zero =>
      -- the block of the root itself
      have hne : ∀ q < n - 1, rankAt n root 0 ≠ rankAt n root (q + 1) := by
        intro q hq h
        have := rankAt_inj hroot (by omega) (by omega) h
        omega
      rw [Mem.copyBlocks_of_not_mem _ hi hne, Mem.write_of_not_has fun h => hrecv h.1,
        rankAt_zero hroot]
      exact gatherStart_root sendBuf recvBuf m hroot hi
  | succ q =>
      have hpos : n - 1 - (n - 2 - q) = q + 1 := by omega
      rw [Mem.copyBlocks_apply _ hrecv.symm hi hinj (by omega),
        Mem.write_start _ _ (Slice.block_lt (by omega) hi), if_pos rfl, Nat.zero_add,
        chainMem_gather (x := fun p i => m (rankFrom n root p) (sendBuf (rankFrom n root p)) i)
          ?_ (by omega) (by omega) hi, rankFrom, hpos]
      intro p hp i hi
      have hne : rankFrom n root p ≠ root := by
        intro h
        have := rankFrom_inj hroot (by omega) (by omega) (h.trans hfrom.symm)
        omega
      exact gatherStart_of_ne sendBuf recvBuf m (rankAt_lt (by omega) _) hne hi

end Gather

/-! ### AllGather -/

section AllGather

variable {sendBuf recvBuf : ℕ → Buf} (hn : 2 ≤ n) (w : ℕ) (m : ℕ → RankMem α) {c i : ℕ}
  (hc : c < n) (hi : i < count)
include hn hc hi

/-- In a round the rank that follows the last holder of a block gets it. -/
theorem exec_allGatherStep {step k : ℕ} (hstep : step < n - 1) (hk : k < n) :
    Script.exec (allGatherStep n count w recvBuf step) m (rankAt n c k)
        (recvBuf (rankAt n c k)) (c * count + i)
      = if k = step + 1 then m (rankAt n c step) (recvBuf (rankAt n c step)) (c * count + i)
        else m (rankAt n c k) (recvBuf (rankAt n c k)) (c * count + i) := by
  have hr : rankAt n c k < n := rankAt_lt (by omega) k
  have hsend : AllReduceReduceScatter.sendChunk n (getPrevRank n (rankAt n c k)) step
      = AllReduceReduceScatter.recvChunk n (rankAt n c k) step := by
    rw [AllReduceReduceScatter.sendChunk_eq_recvChunk (by omega), getNextRank_getPrevRank hr]
  have hrecv := AllReduceReduceScatter.recvChunk_rankAt hc hk hstep
  have hsd : ∀ q < n, (⟨recvBuf q, AllReduceReduceScatter.sendChunk n q step * count, count⟩ :
      Slice Buf).Disjoint
        ⟨recvBuf q, AllReduceReduceScatter.recvChunk n q step * count, count⟩ := fun q _ =>
    Slice.disjoint_block (AllReduceReduceScatter.sendChunk_ne_recvChunk hn (by omega) q) _ _ _
  have hexec := exec_hopOrder hsd w m hr
  rw [hsend] at hexec
  refine (congrFun (congrFun hexec _) _).trans ?_
  rw [Mem.write_block _ _ hi]
  by_cases hkstep : k = step + 1
  · rw [if_pos ⟨rfl, (hrecv.mpr hkstep).symm⟩, if_pos hkstep, hrecv.mpr hkstep, hkstep,
      getPrevRank_rankAt (by omega)]
  · rw [if_neg fun h => hkstep (hrecv.mp h.2.symm), if_neg hkstep]

/-- After `T` rounds, the ranks up to position `T` have the block. -/
theorem exec_allGatherSteps {T : ℕ} (hT : T ≤ n - 1) {k : ℕ} (hk : k < n) :
    Script.exec ((List.range T).flatMap (allGatherStep n count w recvBuf)) m (rankAt n c k)
        (recvBuf (rankAt n c k)) (c * count + i)
      = if k ≤ T then m c (recvBuf c) (c * count + i)
        else m (rankAt n c k) (recvBuf (rankAt n c k)) (c * count + i) := by
  induction T generalizing k with
  | zero =>
      by_cases hzero : k ≤ 0
      · obtain rfl : k = 0 := Nat.le_zero.mp hzero
        rw [if_pos le_rfl, rankAt_zero hc]
        rfl
      · rw [if_neg hzero]
        rfl
  | succ T ih =>
      rw [List.range_succ, List.flatMap_append, List.flatMap_singleton, Script.exec_append,
        exec_allGatherStep hn w _ hc hi (by omega) hk]
      by_cases hkT : k = T + 1
      · rw [if_pos hkT, if_pos (by omega), ih (by omega) (by omega), if_pos le_rfl]
      · rw [if_neg hkT, ih (by omega) hk]
        simp only [show (k ≤ T + 1) = (k ≤ T) from propext (by omega)]

/-- **`AllGather`** leaves every block on every rank. -/
theorem exec_allGatherScript {r : ℕ} (hr : r < n) :
    Script.exec (allGatherScript n count w sendBuf recvBuf) m r (recvBuf r) (c * count + i)
      = m c (sendBuf c) i := by
  obtain ⟨k, hk, rfl⟩ := exists_rankAt hc hr
  rw [allGatherScript, Script.exec_append, exec_allGatherSteps hn w _ hc hi le_rfl hk,
    if_pos (by omega), Script.exec_locals_range _ _ hc, Mem.copy_block _ hi, if_pos ⟨rfl, rfl⟩,
    Nat.zero_add]

end AllGather

/-! ### AllToAll -/

section AllToAll

variable {sendBuf recvBuf : ℕ → Buf} (hsend : ∀ r < n, sendBuf r ≠ .tempBuffer)
  (hrecv : ∀ r < n, recvBuf r ≠ .tempBuffer) (hne : ∀ r < n, sendBuf r ≠ recvBuf r) (w : ℕ)
  (m : ℕ → RankMem α) {r : ℕ} (hr : r < n)
include hr

/-- A round leaves what is sent, and only fills the block of its source. -/
theorem exec_allToAllStep_of_ne {src : ℕ} (hsrc : src < n) {b : Buf} (hb : b ≠ .tempBuffer)
    (hbr : b ≠ recvBuf r) :
    Script.exec (allToAllStep n count w sendBuf recvBuf src) m r b = m r b := by
  rw [allToAllStep, Script.exec_append, Script.exec_append, Script.exec_locals_range _ _ hr,
    Mem.copy_of_ne _ hbr, exec_broadcastScript_of_ne _ _ hsrc w hr hb,
    Script.exec_locals_range _ _ hr]
  by_cases hrs : r = src
  · rw [if_pos hrs, Mem.copy_of_ne _ hb]
  · rw [if_neg hrs]

include hrecv

theorem exec_allToAllStep {src : ℕ} (hsrc : src < n) {k i : ℕ} (hi : i < count) :
    Script.exec (allToAllStep n count w sendBuf recvBuf src) m r (recvBuf r) (k * count + i)
      = if k = src then m src (sendBuf src) (r * count + i)
        else m r (recvBuf r) (k * count + i) := by
  have hcell : r * count + i < count * n := Nat.mul_comm n count ▸ Slice.block_lt hr hi
  rw [allToAllStep, Script.exec_append, Script.exec_append, Script.exec_locals_range _ _ hr,
    Mem.copy_block _ hi]
  by_cases hk : k = src
  · rw [if_pos ⟨rfl, hk⟩, if_pos hk,
      exec_broadcastScript (fun _ => .tempBuffer) _ hsrc w hr hcell,
      Script.exec_locals_range _ _ hsrc, if_pos rfl, Mem.copy_start _ hcell, if_pos rfl,
      Nat.zero_add]
  · rw [if_neg fun h => hk h.2, if_neg hk,
      exec_broadcastScript_of_ne _ _ hsrc w hr (hrecv r hr),
      Script.exec_locals_range _ _ hr]
    by_cases hrs : r = src
    · rw [if_pos hrs, Mem.copy_of_ne _ (hrecv r hr)]
    · rw [if_neg hrs]

omit hr
include hsend hne

/-- After `T` rounds, the blocks of the first `T` ranks are there. -/
theorem exec_allToAllSteps {T : ℕ} (hT : T ≤ n) {r : ℕ} (hr : r < n) :
    Script.exec ((List.range T).flatMap (allToAllStep n count w sendBuf recvBuf)) m r (sendBuf r)
        = m r (sendBuf r) ∧
      ∀ k < T, ∀ i < count,
        Script.exec ((List.range T).flatMap (allToAllStep n count w sendBuf recvBuf)) m r
          (recvBuf r) (k * count + i) = m k (sendBuf k) (r * count + i) := by
  induction T generalizing r with
  | zero => exact ⟨rfl, fun k hk => absurd hk (Nat.not_lt_zero k)⟩
  | succ T ih =>
      rw [List.range_succ, List.flatMap_append, List.flatMap_singleton, Script.exec_append]
      refine ⟨?_, fun k hk i hi => ?_⟩
      · rw [exec_allToAllStep_of_ne w _ hr (by omega) (hsend r hr) (hne r hr),
          (ih (by omega) hr).1]
      · rw [exec_allToAllStep hrecv w _ hr (by omega) hi]
        by_cases hkT : k = T
        · subst hkT
          rw [if_pos rfl, (ih (by omega) (by omega)).1]
        · rw [if_neg hkT, (ih (by omega) hr).2 k (by omega) i hi]

include hr

/-- **`AllToAll`** transposes the blocks. -/
theorem exec_allToAllScript {k i : ℕ} (hk : k < n) (hi : i < count) :
    Script.exec (allToAllScript n count w sendBuf recvBuf) m r (recvBuf r) (k * count + i)
      = m k (sendBuf k) (r * count + i) := by
  rw [allToAllScript, Script.exec_append,
    (exec_allToAllSteps hsend hrecv hne w _ le_rfl hr).2 k hk i hi,
    Script.exec_locals_range _ _ hk, Mem.copy_of_ne _ (hne k hk)]

end AllToAll

end MiniCcl.TopologyRing
