/-
MiniCcl/RingRanks.lean

Ranks of the ring: positions relative to a root, neighbours, and orders of the
hops from each rank to the next.

A script has to put the hops of one round in an order that agrees with the order
in which every rank makes its own two calls.  Where rank 0 sends first and the
others receive first (`Barrier`, `AllReduceTwoRanks`) this is the order of the
ranks.  Where even ranks send first and odd ranks receive first (`AllGather`) it
is the even ranks followed by the odd ones, also when an odd world size puts two
even ranks next to each other.
-/
import MiniCcl.Patterns
import MiniCcl.Ring

namespace MiniCcl.TopologyRing

open Prog

variable {α : Type*}

/-! ### Ranks and positions -/

/-- The rank at a given position after the root. -/
def rankAt (worldSize root position : ℕ) : ℕ := (root + position) % worldSize

theorem mod_of_lt_two_mul {a n : ℕ} (h : a < 2 * n) :
    a % n = if a < n then a else a - n := by
  by_cases ha : a < n
  · rw [if_pos ha, Nat.mod_eq_of_lt ha]
  · rw [if_neg ha, Nat.mod_eq_sub_mod (Nat.le_of_not_lt ha), Nat.mod_eq_of_lt (by omega)]

section Positions

variable {n root : ℕ}

theorem rankAt_lt (hn : 0 < n) (p : ℕ) : rankAt n root p < n := Nat.mod_lt _ hn

theorem rankAt_zero (hroot : root < n) : rankAt n root 0 = root := Nat.mod_eq_of_lt hroot

theorem rankAt_self (hroot : root < n) : rankAt n root n = root := by
  rw [rankAt, Nat.add_mod_right, Nat.mod_eq_of_lt hroot]

theorem rankAt_inj (hroot : root < n) {p q : ℕ} (hp : p < n) (hq : q < n)
    (h : rankAt n root p = rankAt n root q) : p = q := by
  rw [rankAt, rankAt, mod_of_lt_two_mul (by omega), mod_of_lt_two_mul (by omega)] at h
  split_ifs at h <;> omega

theorem rankAt_eq_root_iff (hroot : root < n) {p : ℕ} (hp : p < 2 * n) :
    rankAt n root p = root ↔ p = 0 ∨ p = n := by
  constructor
  · intro h
    by_cases hpn : p < n
    · exact .inl (rankAt_inj hroot hpn (by omega) (h.trans (rankAt_zero hroot).symm))
    · have hwrap : rankAt n root (p - n) = rankAt n root p := by
        rw [rankAt, rankAt, ← Nat.add_mod_right, Nat.add_assoc, Nat.sub_add_cancel (by omega)]
      have := rankAt_inj hroot (by omega) (by omega)
        (hwrap.trans (h.trans (rankAt_zero hroot).symm))
      exact .inr (by omega)
  · rintro (rfl | rfl)
    · exact rankAt_zero hroot
    · exact rankAt_self hroot

theorem rankAt_eq_root (hroot : root < n) {p : ℕ} (hp : p < n) :
    rankAt n root p = root ↔ p = 0 := by
  rw [rankAt_eq_root_iff hroot (by omega)]
  omega

theorem rankAt_add (n root p k : ℕ) :
    (rankAt n root p + k) % n = rankAt n root (p + k) := by
  rw [rankAt, Nat.mod_add_mod, rankAt, Nat.add_assoc]

/-- `(rank - root + world_size) % world_size` is the position of `rank`. -/
theorem position_rankAt (hroot : root < n) {p : ℕ} (hp : p < n) :
    (rankAt n root p + n - root) % n = p := by
  rw [rankAt, mod_of_lt_two_mul (a := root + p) (by omega)]
  split_ifs with h
  · rw [show root + p + n - root = p + n by omega, Nat.add_mod_right, Nat.mod_eq_of_lt hp]
  · rw [show root + p - n + n - root = p by omega, Nat.mod_eq_of_lt hp]

theorem exists_rankAt (hroot : root < n) {r : ℕ} (hr : r < n) :
    ∃ p < n, r = rankAt n root p := by
  refine ⟨(r + n - root) % n, Nat.mod_lt _ (by omega), ?_⟩
  rw [rankAt, Nat.add_mod_mod, show root + (r + n - root) = r + n by omega,
    Nat.add_mod_right, Nat.mod_eq_of_lt hr]

theorem getNextRank_rankAt (n root p : ℕ) :
    getNextRank n (rankAt n root p) = rankAt n root (p + 1) := by
  rw [getNextRank, rankAt, Nat.mod_add_mod, Nat.add_assoc, rankAt]

theorem getPrevRank_rankAt (hn : 0 < n) (root p : ℕ) :
    getPrevRank n (rankAt n root (p + 1)) = rankAt n root p := by
  rw [getPrevRank, rankAt, Nat.add_sub_assoc hn, Nat.mod_add_mod,
    show root + (p + 1) + (n - 1) = root + p + n by omega, Nat.add_mod_right, rankAt]

end Positions

section Neighbours

variable {n r : ℕ}

theorem getNextRank_lt (hn : 0 < n) : getNextRank n r < n := Nat.mod_lt _ hn

theorem getPrevRank_lt (hn : 0 < n) : getPrevRank n r < n := Nat.mod_lt _ hn

theorem getNextRank_of_lt (hr : r < n) :
    getNextRank n r = if r + 1 = n then 0 else r + 1 := by
  rw [getNextRank, mod_of_lt_two_mul (by omega)]
  split_ifs <;> omega

theorem getPrevRank_of_lt (hr : r < n) :
    getPrevRank n r = if r = 0 then n - 1 else r - 1 := by
  rw [getPrevRank, mod_of_lt_two_mul (by omega)]
  split_ifs <;> omega

theorem getNextRank_getPrevRank (hr : r < n) : getNextRank n (getPrevRank n r) = r := by
  rw [getNextRank_of_lt (getPrevRank_lt (by omega)), getPrevRank_of_lt hr]
  split_ifs <;> omega

theorem eq_getPrevRank {q : ℕ} (hq : q < n) (h : getNextRank n q = r) :
    q = getPrevRank n r := by
  subst h
  rw [getPrevRank_of_lt (getNextRank_lt (by omega)), getNextRank_of_lt hq]
  by_cases hlast : q + 1 = n
  · rw [if_pos hlast, if_pos rfl]
    omega
  · rw [if_neg hlast, if_neg (Nat.succ_ne_zero q)]
    rfl

theorem getPrevRank_ne (hn : 2 ≤ n) (hr : r < n) : getPrevRank n r ≠ r := by
  rw [getPrevRank_of_lt hr]
  split_ifs <;> omega

theorem getNextRank_ne (hn : 2 ≤ n) (hr : r < n) : r ≠ getNextRank n r := by
  rw [getNextRank_of_lt hr]
  split_ifs <;> omega

/-- The communicator that holds a transport to every neighbour of the rank. -/
def neighborComm (worldSize rank : ℕ) : Communicator := ⟨getNeighbors worldSize rank⟩

theorem withRing_neighborComm (n r : ℕ) (k : ℕ → ℕ → RankProg α) :
    withRing n r (neighborComm n r) k = k (getPrevRank n r) (getNextRank n r) := by
  have hprev : getPrevRank n r ∈ getNeighbors n r := List.mem_cons_self
  have hnext : getNextRank n r ∈ getNeighbors n r := by
    by_cases h : getNextRank n r = getPrevRank n r
    · exact h ▸ hprev
    · simp [getNeighbors, h]
  simp [withRing, neighborComm, Communicator.getTransport, hprev, hnext]

end Neighbours

/-! ### Chunks

In the coordinates of a chunk `c`, the rank at position `k` receives the chunk in
step `k - 1` of the first phase and in step `k` of the second. -/

namespace AllReduceReduceScatter

variable {n step : ℕ}

/-- The chunk that a rank sends is the one that the next rank receives. -/
theorem sendChunk_eq_recvChunk (hstep : step < n) (q : ℕ) :
    sendChunk n q step = recvChunk n (getNextRank n q) step := by
  have hsub : getNextRank n q + n - 1 - step = getNextRank n q + (n - 1 - step) := by omega
  rw [sendChunk, recvChunk, hsub, getNextRank, Nat.mod_add_mod]
  congr 1
  omega

/-- A rank never receives the chunk that it is sending. -/
theorem sendChunk_ne_recvChunk (hn : 2 ≤ n) (hstep : step < n) (r : ℕ) :
    sendChunk n r step ≠ recvChunk n r step := by
  have hnext : sendChunk n r step = getNextRank n (recvChunk n r step) := by
    rw [getNextRank, recvChunk, Nat.mod_add_mod, sendChunk]
    congr 1
    omega
  rw [hnext]
  exact (getNextRank_ne hn (Nat.mod_lt _ (by omega))).symm

theorem recvChunk_rankAt {c k : ℕ} (hc : c < n) (hk : k < n) (hstep : step < n - 1) :
    recvChunk n (rankAt n c k) step = c ↔ k = step + 1 := by
  have hsub : rankAt n c k + n - 1 - step = rankAt n c k + (n - 1 - step) := by omega
  rw [recvChunk, hsub, rankAt_add, rankAt_eq_root_iff hc (by omega)]
  omega

end AllReduceReduceScatter

namespace AllReduceAllGather

variable {n step : ℕ}

theorem sendChunk_eq_recvChunk (hstep : step < n) (q : ℕ) :
    sendChunk n q step = recvChunk n (getNextRank n q) step := by
  have hsub : getNextRank n q + n - step = getNextRank n q + (n - step) := by omega
  rw [sendChunk, recvChunk, hsub, getNextRank, Nat.mod_add_mod]
  congr 1
  omega

/-- A rank never receives the chunk that it is sending. -/
theorem sendChunk_ne_recvChunk (hn : 2 ≤ n) (hstep : step < n) (r : ℕ) :
    sendChunk n r step ≠ recvChunk n r step := by
  have hnext : sendChunk n r step = getNextRank n (recvChunk n r step) := by
    rw [getNextRank, recvChunk, Nat.mod_add_mod, sendChunk,
      show r + 1 + n - step = r + n - step + 1 by omega]
  rw [hnext]
  exact (getNextRank_ne hn (Nat.mod_lt _ (by omega))).symm

theorem recvChunk_rankAt {c k : ℕ} (hc : c < n) (hk : k < n) (hstep : step < n) :
    recvChunk n (rankAt n c k) step = c ↔ k = step := by
  have hsub : rankAt n c k + n - step = rankAt n c k + (n - step) := by omega
  rw [recvChunk, hsub, rankAt_add, rankAt_eq_root_iff hc (by omega)]
  omega

end AllReduceAllGather

/-! ### Orders of the hops to the next rank -/

/-- The even ranks, then the odd ones. -/
def hopOrder (n : ℕ) : List ℕ :=
  (List.range n).filter (fun q => q % 2 = 0) ++ (List.range n).filter (fun q => q % 2 = 1)

theorem mem_hopOrder {n q : ℕ} : q ∈ hopOrder n ↔ q < n := by
  have : q % 2 = 0 ∨ q % 2 = 1 := Nat.mod_two_eq_zero_or_one q
  simp only [hopOrder, List.mem_append, List.mem_filter, List.mem_range, decide_eq_true_eq]
  tauto

theorem nodup_hopOrder (n : ℕ) : (hopOrder n).Nodup := by
  refine (List.nodup_range.filter _).append (List.nodup_range.filter _) fun q hq hq' => ?_
  simp only [List.mem_filter, decide_eq_true_eq] at hq hq'
  omega

section HopOrder

variable {n r : ℕ} (hn : 2 ≤ n) (hr : r < n)
include hn hr

/-- An even rank comes before its predecessor.  Rank 0 does even when its
predecessor, the last rank, is even. -/
theorem even_sublist_hopOrder (heven : r % 2 = 0) :
    [r, getPrevRank n r].Sublist (hopOrder n) := by
  have hprev := getPrevRank_of_lt hr
  have hr' : r ∈ (List.range n).filter fun q => q % 2 = 0 := by simp [hr, heven]
  by_cases hodd : getPrevRank n r % 2 = 1
  · have hp' : getPrevRank n r ∈ (List.range n).filter fun q => q % 2 = 1 := by
      simp [getPrevRank_lt (n := n) (r := r) (by omega), hodd]
    exact (List.singleton_sublist.mpr hr').append (List.singleton_sublist.mpr hp')
  · have hzero : r = 0 := by
      by_contra hne
      rw [if_neg hne] at hprev
      omega
    subst hzero
    rw [if_pos rfl] at hprev
    have hboth : [0, n - 1].filter (fun q => decide (q % 2 = 0)) = [0, n - 1] := by
      simp [show (n - 1) % 2 = 0 by omega]
    have hpair : [0, n - 1].Sublist (List.range n) := pair_sublist_range (by omega) (by omega)
    have hpair := hpair.filter fun q => decide (q % 2 = 0)
    rw [hboth] at hpair
    rw [hprev]
    exact hpair.trans (List.sublist_append_left _ _)

omit hn in
theorem odd_sublist_hopOrder (hodd : r % 2 = 1) :
    [getPrevRank n r, r].Sublist (hopOrder n) := by
  have hprev := getPrevRank_of_lt hr
  rw [if_neg (by omega)] at hprev
  have hr' : r ∈ (List.range n).filter fun q => q % 2 = 1 := by simp [hr, hodd]
  have hp' : getPrevRank n r ∈ (List.range n).filter fun q => q % 2 = 0 := by
    simp only [List.mem_filter, List.mem_range, decide_eq_true_eq]
    omega
  exact (List.singleton_sublist.mpr hp').append (List.singleton_sublist.mpr hr')

/-- Even ranks send first, odd ranks receive first. -/
theorem project_hopOrder (s d : ℕ → Slice Buf) (w : ℕ) :
    Script.project r (Script.hops (getNextRank n) (hopOrder n) s d w : Script ℕ Buf α)
      = if r % 2 = 0 then
          [.xfer ⟨.send, getNextRank n r, s r, w⟩, .xfer ⟨.recv, getPrevRank n r, d r, w⟩]
        else
          [.xfer ⟨.recv, getPrevRank n r, d r, w⟩, .xfer ⟨.send, getNextRank n r, s r, w⟩] := by
  have hinj : ∀ q ∈ hopOrder n, getNextRank n q = r → q = getPrevRank n r :=
    fun q hq => eq_getPrevRank (mem_hopOrder.mp hq)
  by_cases heven : r % 2 = 0
  · rw [if_pos heven]
    exact Script.project_hops_send_recv (nodup_hopOrder n) (even_sublist_hopOrder hn hr heven)
      (getNextRank_getPrevRank hr) (getPrevRank_ne hn hr) hinj s d w
  · rw [if_neg heven]
    exact Script.project_hops_recv_send (nodup_hopOrder n)
      (odd_sublist_hopOrder hr (by omega)) (getNextRank_getPrevRank hr)
      (getPrevRank_ne hn hr) hinj s d w

/-- In the order of the ranks, only rank 0 sends first. -/
theorem project_hops_range (s d : ℕ → Slice Buf) (w : ℕ) :
    Script.project r (Script.hops (getNextRank n) (List.range n) s d w : Script ℕ Buf α)
      = if r = 0 then
          [.xfer ⟨.send, getNextRank n r, s r, w⟩, .xfer ⟨.recv, getPrevRank n r, d r, w⟩]
        else
          [.xfer ⟨.recv, getPrevRank n r, d r, w⟩, .xfer ⟨.send, getNextRank n r, s r, w⟩] := by
  have hinj : ∀ q ∈ List.range n, getNextRank n q = r → q = getPrevRank n r :=
    fun q hq => eq_getPrevRank (List.mem_range.mp hq)
  have hprev := getPrevRank_of_lt hr
  by_cases hzero : r = 0
  · rw [if_pos hzero] at hprev ⊢
    refine Script.project_hops_send_recv List.nodup_range ?_
      (getNextRank_getPrevRank hr) (getPrevRank_ne hn hr) hinj s d w
    exact pair_sublist_range (by omega) (by omega)
  · rw [if_neg hzero] at hprev ⊢
    refine Script.project_hops_recv_send List.nodup_range ?_
      (getNextRank_getPrevRank hr) (getPrevRank_ne hn hr) hinj s d w
    exact pair_sublist_range (by omega) (by omega)

end HopOrder

end MiniCcl.TopologyRing
