/-
MiniCcl/MeshRooted.lean

What `Reduce` on the full mesh computes: the root goes through its peers and
combines the input of each into its own.
-/
import MiniCcl.MeshSchedule
import MiniCcl.Reduction

namespace MiniCcl.TopologyFullMesh

variable {α : Type*} {n root count : ℕ}

section Reduce

variable (sendBuf recvBuf : ℕ → Buf) (red : Reducer α) (m : ℕ → RankMem α)

/-- The loop of the root: receive into `temp_buffer`, then reduce. -/
theorem foldl_reduce {recvRoot : Buf} (hrecv : recvRoot ≠ .tempBuffer) {i : ℕ} (hi : i < count)
    (L : List ℕ) (M : RankMem α) :
    L.foldl (fun M p => [red.perform ⟨.tempBuffer, 0⟩ ⟨recvRoot, 0⟩ count].foldl (fun M f => f M)
        (M.write ⟨.tempBuffer, 0, count⟩ ((m p).read ⟨sendBuf p, 0, count⟩))) M recvRoot i
      = starFold red.combine (fun p => m p (sendBuf p) i) (M recvRoot i) L := by
  induction L generalizing M with
  | nil => rfl
  | cons p L ih =>
      rw [List.foldl_cons, ih, starFold_cons]
      congr 1
      rw [List.foldl_cons, List.foldl_nil, red.perform_received M (m p) hrecv.symm _ hi]

/-- **`Reduce`** leaves at the root the star fold over its peers. -/
theorem exec_reduceScript (w : ℕ) (hrecv : recvBuf root ≠ .tempBuffer) {i : ℕ} (hi : i < count) :
    Script.exec (reduceScript n count w root sendBuf recvBuf red) m root (recvBuf root) i
      = starFold red.combine (fun p => m p (sendBuf p) i) (m root (sendBuf root) i)
        (peersOf n root) := by
  have hpeer : ∀ p ∈ peersOf n root, p ≠ root := fun p hp => (mem_peersOf.mp hp).2
  have hfold := foldl_reduce sendBuf red
    (Event.exec (.act root fun m => m.copy (recvBuf root) 0 (sendBuf root) 0 count) m) hrecv hi
    (peersOf n root) (Event.exec (.act root fun m => m.copy (recvBuf root) 0 (sendBuf root) 0 count)
      m root)
  rw [reduceScript, Script.exec_cons, Script.exec_inward (not_mem_peersOf n root),
    Function.update_self, hfold, Event.exec, Function.update_self, Mem.copy_start _ hi,
    if_pos rfl, Nat.zero_add]
  -- the copy of the root does not touch what the peers send
  refine List.foldl_ext _ _ _ fun acc p hp => ?_
  beta_reduce
  rw [Function.update_of_ne (hpeer p hp)]

end Reduce

/-- The result of every completed run of `Reduce`. -/
theorem reduce_of_completed (hn : 1 ≤ n) (hroot : root < n) {sendBuf recvBuf : ℕ → ℕ}
    {dtype : DataType} {red : Reducer α} {m : ℕ → RankMem α} {s : Fifo ℕ Buf α}
    (hs : Fifo.step.Reaches
      (Fifo.init (callTeam n (.reduce sendBuf recvBuf count dtype red root)) m) s)
    (hdone : ∀ r < n, (s.node r).Finished) {i : ℕ} (hi : i < count) :
    (s.node root).mem (.user (recvBuf root)) i
      = starFold red.combine (fun p => m p (.user (sendBuf p)) i)
        (m root (.user (sendBuf root)) i) (peersOf n root) := by
  rw [mem_of_completed hn hs hdone hroot]
  exact exec_reduceScript (userBuf sendBuf) (userBuf recvBuf) red m _ Buf.noConfusion hi

end MiniCcl.TopologyFullMesh
