/-
MiniCcl/Topology.lean

The interface of `topology.h`: the collective calls with their arguments.

All ranks make the same calls with matching counts, types, operations and
roots.  The buffers are those of each rank, so a call names them for every rank.
-/
import MiniCcl.Utils

namespace MiniCcl

/-- A collective call, as all ranks make it; `sendBuf r` and `recvBuf r` are the
buffers that rank `r` passes. -/
inductive Call (α : Type*)
  | broadcast (buffer : ℕ → ℕ) (count : ℕ) (dtype : DataType) (root : ℕ)
  | gather (sendBuf recvBuf : ℕ → ℕ) (count : ℕ) (dtype : DataType) (root : ℕ)
  | scatter (sendBuf recvBuf : ℕ → ℕ) (count : ℕ) (dtype : DataType) (root : ℕ)
  | reduce (sendBuf recvBuf : ℕ → ℕ) (count : ℕ) (dtype : DataType) (red : Reducer α)
      (root : ℕ)
  | allGather (sendBuf recvBuf : ℕ → ℕ) (count : ℕ) (dtype : DataType)
  | reduceScatter (sendBuf recvBuf : ℕ → ℕ) (count : ℕ) (dtype : DataType) (red : Reducer α)
  | allReduce (sendBuf recvBuf : ℕ → ℕ) (count : ℕ) (dtype : DataType) (red : Reducer α)
  | allToAll (sendBuf recvBuf : ℕ → ℕ) (count : ℕ) (dtype : DataType)
  | barrier

/-- The root, if the call has one, is a rank. -/
def Call.Valid {α : Type*} (worldSize : ℕ) : Call α → Prop
  | .broadcast _ _ _ root => root < worldSize
  | .gather _ _ _ _ root => root < worldSize
  | .scatter _ _ _ _ root => root < worldSize
  | .reduce _ _ _ _ _ root => root < worldSize
  | _ => True

/-- The buffer that each rank passes for an argument of a call. -/
def userBuf (k : ℕ → ℕ) (r : ℕ) : Buf := .user (k r)

end MiniCcl
