/-
MiniCcl/TopologyFactory.lean

The two topologies behind the interface of `topology.h`.
-/
import MiniCcl.MeshSchedule
import MiniCcl.RingSchedule

namespace MiniCcl.TopologyType

variable {α : Type*}

def getNeighbors : TopologyType → ℕ → ℕ → List ℕ
  | fullMesh => TopologyFullMesh.getNeighbors
  | ring => TopologyRing.getNeighbors

def shouldConnect : TopologyType → ℕ → ℕ → ℕ → Bool
  | fullMesh => fun _ => TopologyFullMesh.shouldConnect
  | ring => TopologyRing.shouldConnect

/-- The communicator of a rank once `Init` has returned. -/
def neighborComm (topology : TopologyType) (worldSize rank : ℕ) : Communicator :=
  ⟨topology.getNeighbors worldSize rank⟩

/-- The part of a collective call that one rank makes. -/
def call : TopologyType → ℕ → ℕ → Communicator → Call α → RankProg α
  | fullMesh => TopologyFullMesh.call
  | ring => TopologyRing.call

def callScript : TopologyType → ℕ → Call α → Script ℕ Buf α
  | fullMesh => TopologyFullMesh.callScript
  | ring => TopologyRing.callScript

theorem schedule_call (topology : TopologyType) {n : ℕ} (hn : 2 ≤ n) {c : Call α}
    (hc : c.Valid n) :
    Schedule (· < n) (fun r => topology.call n r (topology.neighborComm n r) c)
      (topology.callScript n c) := by
  cases topology with
  | fullMesh => exact TopologyFullMesh.schedule_call (by omega) hc
  | ring => exact TopologyRing.schedule_call hn hc

/-! ### Neighbours -/

section Neighbors

variable {topology : TopologyType} {n r p : ℕ}

theorem mem_ring_getNeighbors :
    p ∈ TopologyRing.getNeighbors n r ↔
      p = TopologyRing.getPrevRank n r ∨ p = TopologyRing.getNextRank n r := by
  unfold TopologyRing.getNeighbors
  by_cases h : TopologyRing.getNextRank n r = TopologyRing.getPrevRank n r
  · simp [h]
  · simp [h]

/-- A neighbour is another rank. -/
theorem getNeighbors_wf (hn : 2 ≤ n) (hr : r < n) (hp : p ∈ topology.getNeighbors n r) :
    p < n ∧ p ≠ r := by
  cases topology with
  | fullMesh => exact TopologyFullMesh.mem_peersOf.mp hp
  | ring =>
      rcases mem_ring_getNeighbors.mp hp with rfl | rfl
      · exact ⟨TopologyRing.getPrevRank_lt (by omega), TopologyRing.getPrevRank_ne hn hr⟩
      · exact ⟨TopologyRing.getNextRank_lt (by omega), (TopologyRing.getNextRank_ne hn hr).symm⟩

theorem nodup_getNeighbors : (topology.getNeighbors n r).Nodup := by
  cases topology with
  | fullMesh => exact List.nodup_range.filter _
  | ring =>
      show (TopologyRing.getNeighbors n r).Nodup
      unfold TopologyRing.getNeighbors
      by_cases h : TopologyRing.getNextRank n r = TopologyRing.getPrevRank n r
      · simp [h]
      · simp [h, Ne.symm h]

/-- The neighbours of a rank have it as a neighbour. -/
theorem mem_getNeighbors_of_mem (hr : r < n) (hp : p ∈ topology.getNeighbors n r) :
    r ∈ topology.getNeighbors n p := by
  cases topology with
  | fullMesh =>
      obtain ⟨-, hne⟩ := TopologyFullMesh.mem_peersOf.mp hp
      exact TopologyFullMesh.mem_peersOf.mpr ⟨hr, hne.symm⟩
  | ring =>
      refine mem_ring_getNeighbors.mpr ?_
      rcases mem_ring_getNeighbors.mp hp with rfl | rfl
      · exact .inr (TopologyRing.getNextRank_getPrevRank hr).symm
      · exact .inl (TopologyRing.eq_getPrevRank hr rfl)

/-- Of two neighbours the smaller one connects. -/
theorem shouldConnect_iff (hp : p ∈ topology.getNeighbors n r) :
    topology.shouldConnect n r p = true ↔ r < p := by
  cases topology with
  | fullMesh => exact decide_eq_true_iff
  | ring =>
      show TopologyRing.shouldConnect n r p = true ↔ r < p
      unfold TopologyRing.shouldConnect
      rcases mem_ring_getNeighbors.mp hp with rfl | rfl
      · by_cases hlt : r < TopologyRing.getPrevRank n r <;> simp [hlt]
      · by_cases hlt : r < TopologyRing.getNextRank n r <;> simp [hlt]

end Neighbors

end MiniCcl.TopologyType
