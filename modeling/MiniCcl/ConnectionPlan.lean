/-
MiniCcl/ConnectionPlan.lean

Whether the peers that the ranks compute for `InitTransports`, each for itself, fit
together.

They do on the full mesh, and on the ring from two ranks on.  On a ring of one rank the
previous and the next rank are the rank itself, so `GetNeighbors` lists it, and it waits
to accept a connection that nobody opens.
-/
import MiniCcl.InitTransports
import Mathlib.Algebra.BigOperators.Group.Finset.Basic

namespace MiniCcl.InitTransports

/-- The neighbours are symmetric, and every rank accepts exactly the connections that
others open to it. -/
structure Consistent (topology : TopologyType) (worldSize : ℕ) : Prop where
  nodup : ∀ a < worldSize, (topology.getNeighbors worldSize a).Nodup
  irrefl : ∀ a < worldSize, a ∉ topology.getNeighbors worldSize a
  symm : ∀ a < worldSize, ∀ b < worldSize,
    (b ∈ topology.getNeighbors worldSize a ↔ a ∈ topology.getNeighbors worldSize b)
  paired : ∀ a < worldSize, ∀ b < worldSize,
    (b ∈ (peers topology worldSize).accept a ↔ a ∈ (peers topology worldSize).connect b)
  count : ∀ a < worldSize, ((peers topology worldSize).accept a).length
    = ∑ b ∈ (Finset.range worldSize).erase a, ((peers topology worldSize).connect b).count a

/-- A rank accepts as many connections as the others open to it. -/
theorem Peers.Paired.length_accept {P : Peers} {n : ℕ} (h : P.Paired n) {a : ℕ} (ha : a < n) :
    (P.accept a).length = ∑ b ∈ (Finset.range n).erase a, (P.connect b).count a := by
  have hset : (P.accept a).toFinset = ((Finset.range n).erase a).filter (a ∈ P.connect ·) := by
    ext b
    rw [List.mem_toFinset, Finset.mem_filter, Finset.mem_erase, Finset.mem_range]
    constructor
    · intro hb
      have hlt := h.accept_lt ha hb
      exact ⟨⟨hlt.ne, hlt.trans ha⟩, h.connect_of_accept ha hb⟩
    · rintro ⟨⟨-, hb⟩, hmem⟩
      exact h.accept_of_connect hb hmem
  rw [← List.toFinset_card_of_nodup (h.nodup_accept a), hset, Finset.card_filter]
  apply Finset.sum_congr rfl
  intro b _
  exact (List.Nodup.count (h.nodup_connect b)).symm

theorem consistent_of_two_le (topology : TopologyType) {n : ℕ} (hn : 2 ≤ n) :
    Consistent topology n where
  nodup _ _ := TopologyType.nodup_getNeighbors
  irrefl _ ha hmem := (TopologyType.getNeighbors_wf hn ha hmem).2 rfl
  symm _ ha _ hb :=
    ⟨TopologyType.mem_getNeighbors_of_mem ha, TopologyType.mem_getNeighbors_of_mem hb⟩
  paired _ ha _ hb :=
    ⟨(paired_peers topology hn).connect_of_accept ha,
      (paired_peers topology hn).accept_of_connect hb⟩
  count _ ha := (paired_peers topology hn).length_accept ha

/-- Ranks without neighbours have no peers. -/
theorem consistent_of_eq_nil {topology : TopologyType} {n : ℕ}
    (h : ∀ a < n, topology.getNeighbors n a = []) : Consistent topology n where
  nodup a ha := by simp [h a ha]
  irrefl a ha := by simp [h a ha]
  symm a ha b hb := by simp [h a ha, h b hb]
  paired a ha b hb := by simp [peers, h a ha, h b hb]
  count a ha := by
    have hconnect : ∀ b ∈ (Finset.range n).erase a,
        ((peers topology n).connect b).count a = 0 := by
      intro b hb
      simp [peers, h b (Finset.mem_range.mp (Finset.mem_of_mem_erase hb))]
    rw [Finset.sum_eq_zero hconnect]
    simp [peers, h a ha]

/-- A single rank skips itself on the full mesh. -/
theorem consistent_fullMesh_one : Consistent .fullMesh 1 := by
  apply consistent_of_eq_nil
  intro a ha
  obtain rfl : a = 0 := Nat.lt_one_iff.mp ha
  rfl

/-- On the ring a single rank is its own neighbour. -/
theorem not_consistent_ring_one : ¬ Consistent .ring 1 := by
  intro h
  have hself : 0 ∈ TopologyType.ring.getNeighbors 1 0 := List.mem_cons_self
  exact h.irrefl 0 Nat.one_pos hself

/-- **The plan is consistent for every world size but that of a ring of one rank.** -/
theorem consistent_iff (topology : TopologyType) {n : ℕ} (hn : 1 ≤ n) :
    Consistent topology n ↔ topology = .fullMesh ∨ 2 ≤ n := by
  rcases Nat.eq_or_lt_of_le hn with rfl | hlt
  · cases topology with
    | fullMesh => exact iff_of_true consistent_fullMesh_one (.inl rfl)
    | ring => exact iff_of_false not_consistent_ring_one (by simp)
  · exact iff_of_true (consistent_of_two_le topology hlt) (.inr hlt)

theorem consistent_ring_three : Consistent .ring 3 :=
  (consistent_iff .ring (by decide)).mpr (.inr (by decide))

/-- A single rank on the ring waits to accept a connection, and nobody opens one. -/
theorem not_forall_consistent :
    ((peers .ring 1).accept 0).length = 1
    ∧ ∑ b ∈ (Finset.range 1).erase 0, ((peers .ring 1).connect b).count 0 = 0
    ∧ ¬ ∀ (topology : TopologyType) (n : ℕ), 1 ≤ n → Consistent topology n := by
  refine ⟨rfl, rfl, ?_⟩
  intro h
  exact not_consistent_ring_one (h .ring 1 le_rfl)

end MiniCcl.InitTransports
