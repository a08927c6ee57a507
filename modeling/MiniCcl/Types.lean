/-
MiniCcl/Types.lean

The data of `types.h`, the buffers of one rank and the transport map of a
communicator.

Buffers are modelled as blocks of elements, not of bytes: every transfer of the
collectives moves whole elements, and the number of bytes of an element
(`getDataTypeSize`) is carried by the transfer.  A block is either a buffer of
the caller or one of the vectors and locals of the source, under its name
there.  Such a vector starts with zeros in the source; no collective reads one
of its cells before writing it, so the initial contents are left open.
-/
import Mathlib.Algebra.Group.Nat.Even
import MiniCcl.Process

namespace MiniCcl

/-- Datatypes supported in collective communication. -/
inductive DataType
  | float32
  | float64
  | int32
  | int64
  deriving DecidableEq, Repr

/-- Operations supported in `Reduce`/`AllReduce`. -/
inductive ReduceOp
  | sum
  | max
  | min
  | avg
  deriving DecidableEq, Repr

/-- Topologies supported in collective communication. -/
inductive TopologyType
  | fullMesh
  | ring
  deriving DecidableEq, Repr

/-- `Utils::GetDataTypeSize` -/
def getDataTypeSize : DataType → ℕ
  | .float32 => 4
  | .float64 => 8
  | .int32 => 4
  | .int64 => 8

/-- The buffers of a rank: those of the caller, and the locals of the
collectives. -/
inductive Buf
  | user (k : ℕ)
  | tempBuffer
  | recvTemp
  | reducedBuf
  | peerData
  | sendBuffer
  | temp
  | tempRecvbuf
  | tempBuf
  | dummy
  deriving DecidableEq, Repr

/-- A pointer into a buffer, in elements. -/
structure Ptr where
  buf : Buf
  off : ℕ
  deriving DecidableEq, Repr

/-- Programs of a rank. -/
abbrev RankProg (α : Type*) := Prog ℕ Buf α

/-- Memories of a rank. -/
abbrev RankMem (α : Type*) := Mem Buf α

/-- The part of `Communicator` that the collectives use: the ranks for which
the map `transports` has an entry.  A transport is named by its peer. -/
structure Communicator where
  transports : List ℕ

/-- `Communicator::GetTransport` -/
def Communicator.getTransport (comm : Communicator) (peer : ℕ) : Option ℕ :=
  if peer ∈ comm.transports then some peer else none

theorem Communicator.getTransport_of_mem {comm : Communicator} {peer : ℕ}
    (h : peer ∈ comm.transports) : comm.getTransport peer = some peer :=
  if_pos h

/-- Go on with the transport to `peer`, or return `false` if there is none. -/
def withTransport {α : Type*} (comm : Communicator) (peer : ℕ)
    (k : ℕ → RankProg α) : RankProg α :=
  match comm.getTransport peer with
  | some transport => k transport
  | none => .ret false

theorem withTransport_of_mem {α : Type*} {comm : Communicator} {peer : ℕ}
    (h : peer ∈ comm.transports) (k : ℕ → RankProg α) :
    withTransport comm peer k = k peer := by
  simp [withTransport, Communicator.getTransport_of_mem h]

/-- `size_t` subtraction, which wraps below zero. -/
def sizeSub (a b : ℕ) : ℕ := if b ≤ a then a - b else a + 2 ^ 64 - b

end MiniCcl
