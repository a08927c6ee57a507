/-
MiniCcl/FullMesh.lean

The collectives of `TopologyFullMesh`, as programs of one rank.

As in `Ring.lean`, each definition follows the body of the C++ function of the
same name.  The doubling loops of `ReduceScatter` and `AllReduce` run over
`masks`, the values 1, 2, 4, … that `mask` takes below `world_size`.
-/
import MiniCcl.Topology

namespace MiniCcl.TopologyFullMesh

open Prog

variable {α : Type*}

/-- `TopologyFullMesh::GetNeighbors` -/
def getNeighbors (worldSize r : ℕ) : List ℕ :=
  (List.range worldSize).filter fun i => i ≠ r

/-- `TopologyFullMesh::ShouldConnect`: connect to larger rank only. -/
def shouldConnect (myRank peerRank : ℕ) : Bool := decide (myRank < peerRank)

/-- The peers of a loop over all ranks that skips `r`. -/
def peersOf (worldSize r : ℕ) : List ℕ :=
  (List.range worldSize).filter fun peer => peer ≠ r

/-- Send/Recv for larger peer, Recv/Send for smaller peer. -/
def swap (rank peer : ℕ) (s d : Slice Buf) (typeSize : ℕ) : RankProg α :=
  if rank < peer then (send peer s typeSize).andThen (recv peer d typeSize)
  else (recv peer d typeSize).andThen (send peer s typeSize)

/-! ### Rooted collectives -/

/-- The thread of `Broadcast` for one peer: a missing transport counts as a
failed send. -/
def broadcastThread (comm : Communicator) (buffer : Buf) (count typeSize peer : ℕ) :
    Option (Xfer ℕ Buf) :=
  (comm.getTransport peer).map fun transport => ⟨.send, transport, ⟨buffer, 0, count⟩, typeSize⟩

/-- `TopologyFullMesh::Broadcast`.  The threads record their failures in
`results`, a `vector<bool>` whose entries share words; a lost update keeps the
entry of the last writer, so that the check of `results` fails exactly if some
thread failed. -/
def broadcast (worldSize rank : ℕ) (comm : Communicator) (buffer : Buf) (count : ℕ)
    (dtype : DataType) (root : ℕ) : RankProg α :=
  let typeSize := getDataTypeSize dtype
  if rank = root then
    let threads := (peersOf worldSize root).map (broadcastThread comm buffer count typeSize)
    (all threads.reduceOption).andThen (ret (threads.all Option.isSome))
  else
    withTransport comm root fun transport => recv transport ⟨buffer, 0, count⟩ typeSize

/-- `TopologyFullMesh::Gather` -/
def gather (worldSize rank : ℕ) (comm : Communicator) (sendBuf recvBuf : Buf)
    (count : ℕ) (dtype : DataType) (root : ℕ) : RankProg α :=
  let typeSize := getDataTypeSize dtype
  if rank = root then
    act (fun m => m.copy recvBuf (root * count) sendBuf 0 count) <|
    forEach (peersOf worldSize root) fun peer =>
      withTransport comm peer fun transport =>
        recv transport ⟨recvBuf, peer * count, count⟩ typeSize
  else
    withTransport comm root fun transport => send transport ⟨sendBuf, 0, count⟩ typeSize

/-- `TopologyFullMesh::Scatter` -/
def scatter (worldSize rank : ℕ) (comm : Communicator) (sendBuf recvBuf : Buf)
    (count : ℕ) (dtype : DataType) (root : ℕ) : RankProg α :=
  let typeSize := getDataTypeSize dtype
  if rank = root then
    act (fun m => m.copy recvBuf 0 sendBuf (root * count) count) <|
    forEach (peersOf worldSize root) fun peer =>
      withTransport comm peer fun transport =>
        send transport ⟨sendBuf, peer * count, count⟩ typeSize
  else
    withTransport comm root fun transport => recv transport ⟨recvBuf, 0, count⟩ typeSize

/-- `TopologyFullMesh::Reduce` -/
def reduce (worldSize rank : ℕ) (comm : Communicator) (sendBuf recvBuf : Buf)
    (count : ℕ) (dtype : DataType) (red : Reducer α) (root : ℕ) : RankProg α :=
  let typeSize := getDataTypeSize dtype
  if rank = root then
    act (fun m => m.copy recvBuf 0 sendBuf 0 count) <|
    forEach (peersOf worldSize root) fun peer =>
      withTransport comm peer fun transport =>
        (recv transport ⟨.tempBuffer, 0, count⟩ typeSize).andThen
          (doAct (red.perform ⟨.tempBuffer, 0⟩ ⟨recvBuf, 0⟩ count))
  else
    withTransport comm root fun transport => send transport ⟨sendBuf, 0, count⟩ typeSize

/-! ### Collectives of all ranks -/

/-- `TopologyFullMesh::AllGather` -/
def allGather (worldSize rank : ℕ) (comm : Communicator) (sendBuf recvBuf : Buf)
    (count : ℕ) (dtype : DataType) : RankProg α :=
  let typeSize := getDataTypeSize dtype
  act (fun m => m.copy recvBuf (rank * count) sendBuf 0 count) <|
  forEach (peersOf worldSize rank) fun peer =>
    withTransport comm peer fun transport =>
      swap rank transport ⟨sendBuf, 0, count⟩ ⟨recvBuf, peer * count, count⟩ typeSize

/-- The values of `mask` in `for (mask = 1; mask < world_size; mask <<= 1)`,
from a given one on.  The fuel bounds the number of rounds; as `mask` doubles,
`world_size` rounds are more than enough (`masks_eq`). -/
def masksFrom (worldSize : ℕ) : ℕ → ℕ → List ℕ
  | 0, _ => []
  | fuel + 1, mask =>
      if mask < worldSize then mask :: masksFrom worldSize fuel (mask <<< 1) else []

/-- The values of `mask` in the doubling loops. -/
def masks (worldSize : ℕ) : List ℕ := masksFrom worldSize worldSize 1

/-- `TopologyFullMesh::ReduceScatter` -/
def reduceScatter (worldSize rank : ℕ) (comm : Communicator) (sendBuf recvBuf : Buf)
    (count : ℕ) (dtype : DataType) (red : Reducer α) : RankProg α :=
  let typeSize := getDataTypeSize dtype
  let total := count * worldSize
  act (fun m => m.copy .tempRecvbuf 0 sendBuf 0 total) <|
  (forEach (masks worldSize) fun mask =>
    let peer := rank ^^^ mask
    if peer < worldSize then
      withTransport comm peer fun transport =>
        (swap rank transport ⟨.tempRecvbuf, 0, total⟩ ⟨.tempBuf, 0, total⟩ typeSize).andThen <|
        forEach (List.range worldSize) fun i =>
          doAct (red.perform ⟨.tempBuf, i * count⟩ ⟨.tempRecvbuf, i * count⟩ count)
    else ret true).andThen <|
  doAct fun m => m.copy recvBuf 0 .tempRecvbuf (rank * count) count

/-- `TopologyFullMesh::AllReduce` -/
def allReduce (worldSize rank : ℕ) (comm : Communicator) (sendBuf recvBuf : Buf)
    (count : ℕ) (dtype : DataType) (red : Reducer α) : RankProg α :=
  let typeSize := getDataTypeSize dtype
  act (fun m => m.copy recvBuf 0 sendBuf 0 count) <|
  forEach (masks worldSize) fun mask =>
    let peer := rank ^^^ mask
    if peer < worldSize then
      withTransport comm peer fun transport =>
        (swap rank transport ⟨recvBuf, 0, count⟩ ⟨.tempBuffer, 0, count⟩ typeSize).andThen
          (doAct (red.perform ⟨.tempBuffer, 0⟩ ⟨recvBuf, 0⟩ count))
    else ret true

/-- `TopologyFullMesh::AllToAll` -/
def allToAll (worldSize rank : ℕ) (comm : Communicator) (sendBuf recvBuf : Buf)
    (count : ℕ) (dtype : DataType) : RankProg α :=
  let typeSize := getDataTypeSize dtype
  act (fun m => m.copy recvBuf (rank * count) sendBuf (rank * count) count) <|
  forEach (peersOf worldSize rank) fun peer =>
    withTransport comm peer fun transport =>
      swap rank transport ⟨sendBuf, peer * count, count⟩ ⟨recvBuf, peer * count, count⟩ typeSize

/-- `TopologyFullMesh::Barrier` -/
def barrier (worldSize rank : ℕ) (comm : Communicator) : RankProg α :=
  -- sizeof(int) bytes
  let token : Slice Buf := ⟨.dummy, 0, 1⟩
  if rank = 0 then
    (forEach (List.range' 1 (worldSize - 1)) fun peer =>
      withTransport comm peer fun transport => recv transport token 4).andThen <|
    forEach (List.range' 1 (worldSize - 1)) fun peer =>
      withTransport comm peer fun transport => send transport token 4
  else
    withTransport comm 0 fun transport =>
      (send transport token 4).andThen (recv transport token 4)

/-! ### Calls -/

/-- The part of a collective call that one rank makes. -/
def call (worldSize rank : ℕ) (comm : Communicator) : Call α → RankProg α
  | .broadcast buffer count dtype root =>
      broadcast worldSize rank comm (.user (buffer rank)) count dtype root
  | .gather sendBuf recvBuf count dtype root =>
      gather worldSize rank comm (.user (sendBuf rank)) (.user (recvBuf rank)) count dtype root
  | .scatter sendBuf recvBuf count dtype root =>
      scatter worldSize rank comm (.user (sendBuf rank)) (.user (recvBuf rank)) count dtype root
  | .reduce sendBuf recvBuf count dtype red root =>
      reduce worldSize rank comm (.user (sendBuf rank)) (.user (recvBuf rank)) count dtype red
        root
  | .allGather sendBuf recvBuf count dtype =>
      allGather worldSize rank comm (.user (sendBuf rank)) (.user (recvBuf rank)) count dtype
  | .reduceScatter sendBuf recvBuf count dtype red =>
      reduceScatter worldSize rank comm (.user (sendBuf rank)) (.user (recvBuf rank)) count
        dtype red
  | .allReduce sendBuf recvBuf count dtype red =>
      allReduce worldSize rank comm (.user (sendBuf rank)) (.user (recvBuf rank)) count dtype red
  | .allToAll sendBuf recvBuf count dtype =>
      allToAll worldSize rank comm (.user (sendBuf rank)) (.user (recvBuf rank)) count dtype
  | .barrier => barrier worldSize rank comm

end MiniCcl.TopologyFullMesh
