/-
MiniCcl/Ring.lean

The collectives of `TopologyRing`, as programs of one rank.

Every definition follows the body of the C++ function of the same name, in its
order of calls; `worldSize` and `rank` are the fields of the topology.  Rank
arithmetic is on natural numbers, so `(rank - step + world_size) % world_size`
is written with the addition first.  Sizes are in elements.  Their arithmetic
is that of `size_t`; the one place where it can leave the naturals for buffers
that exist is the subtraction in `actualCount`, and there it wraps.
-/
import MiniCcl.Topology

namespace MiniCcl.TopologyRing

open Prog

variable {α : Type*}

/-! ### Neighbours -/

/-- `TopologyRing::GetPrevRank` -/
def getPrevRank (worldSize r : ℕ) : ℕ := (r + worldSize - 1) % worldSize

/-- `TopologyRing::GetNextRank` -/
def getNextRank (worldSize r : ℕ) : ℕ := (r + 1) % worldSize

/-- `TopologyRing::GetNeighbors` -/
def getNeighbors (worldSize r : ℕ) : List ℕ :=
  let prev := getPrevRank worldSize r
  let next := getNextRank worldSize r
  prev :: if next ≠ prev then [next] else []

/-- `TopologyRing::ShouldConnect` -/
def shouldConnect (worldSize myRank peerRank : ℕ) : Bool :=
  let prev := getPrevRank worldSize myRank
  let next := getNextRank worldSize myRank
  if peerRank = next ∧ myRank < peerRank then true
  else if peerRank = prev ∧ myRank < peerRank then true
  else false

/-- `TopologyRing::GetRingTransports`: go on with the transports to the previous
and the next rank, or return `false` if one is missing. -/
def withRing (worldSize rank : ℕ) (comm : Communicator) (k : ℕ → ℕ → RankProg α) :
    RankProg α :=
  match comm.getTransport (getPrevRank worldSize rank),
      comm.getTransport (getNextRank worldSize rank) with
  | some prev, some next => k prev next
  | _, _ => .ret false

/-! ### Rooted collectives -/

/-- `TopologyRing::Broadcast` -/
def broadcast (worldSize rank : ℕ) (comm : Communicator) (buffer : Buf) (count : ℕ)
    (dtype : DataType) (root : ℕ) : RankProg α :=
  let typeSize := getDataTypeSize dtype
  withRing worldSize rank comm fun prev next =>
    let chunk : Slice Buf := ⟨buffer, 0, count⟩
    let forward : RankProg α := if next ≠ root then send next chunk typeSize else ret true
    if rank = root then forward
    else (recv prev chunk typeSize).andThen forward

/-- `TopologyRing::Gather` -/
def gather (worldSize rank : ℕ) (comm : Communicator) (sendBuf recvBuf : Buf)
    (count : ℕ) (dtype : DataType) (root : ℕ) : RankProg α :=
  let typeSize := getDataTypeSize dtype
  withRing worldSize rank comm fun prev next =>
    let position := (rank + worldSize - root) % worldSize
    if rank = root then
      act (fun m => m.copy recvBuf (root * count) sendBuf 0 count) <|
      (recv next ⟨.temp, 0, (worldSize - 1) * count⟩ typeSize).andThen <|
      forEach (List.range (worldSize - 1)) fun i =>
        let sourceRank := (root + 1 + i) % worldSize
        doAct fun m => m.copy recvBuf (sourceRank * count) .temp (i * count) count
    else
      let chunksToSend := worldSize - position
      act (fun m => m.copy .sendBuffer 0 sendBuf 0 count) <|
      (if position ≠ worldSize - 1 then
          recv next ⟨.sendBuffer, count, (chunksToSend - 1) * count⟩ typeSize
        else ret true).andThen <|
      send prev ⟨.sendBuffer, 0, chunksToSend * count⟩ typeSize

/-- `TopologyRing::Scatter` -/
def scatter (worldSize rank : ℕ) (comm : Communicator) (sendBuf recvBuf : Buf)
    (count : ℕ) (dtype : DataType) (root : ℕ) : RankProg α :=
  let typeSize := getDataTypeSize dtype
  withRing worldSize rank comm fun prev next =>
    if rank = root then
      act (fun m => m.copy recvBuf 0 sendBuf (root * count) count) <|
      forEach (List.range' 1 (worldSize - 1)) fun step =>
        let targetRank := (root + step) % worldSize
        send next ⟨sendBuf, targetRank * count, count⟩ typeSize
    else
      (recv prev ⟨recvBuf, 0, count⟩ typeSize).andThen <|
      let myPos := (rank + worldSize - root) % worldSize
      forEach (List.range (worldSize - 1 - myPos)) fun _ =>
        (recv prev ⟨.temp, 0, count⟩ typeSize).andThen
          (send next ⟨.temp, 0, count⟩ typeSize)

/-- `TopologyRing::Reduce` -/
def reduce (worldSize rank : ℕ) (comm : Communicator) (sendBuf recvBuf : Buf)
    (count : ℕ) (dtype : DataType) (red : Reducer α) (root : ℕ) : RankProg α :=
  let typeSize := getDataTypeSize dtype
  withRing worldSize rank comm fun prev next =>
    let position := (rank + worldSize - root) % worldSize
    if rank = root then
      act (fun m => m.copy recvBuf 0 sendBuf 0 count) <|
      (recv next ⟨.tempBuffer, 0, count⟩ typeSize).andThen <|
      doAct (red.perform ⟨.tempBuffer, 0⟩ ⟨recvBuf, 0⟩ count)
    else
      act (fun m => m.copy .tempBuffer 0 sendBuf 0 count) <|
      (if position ≠ worldSize - 1 then
          (recv next ⟨.recvTemp, 0, count⟩ typeSize).andThen
            (doAct (red.perform ⟨.recvTemp, 0⟩ ⟨.tempBuffer, 0⟩ count))
        else ret true).andThen <|
      send prev ⟨.tempBuffer, 0, count⟩ typeSize

/-! ### Collectives of all ranks -/

/-- `TopologyRing::AllGather` -/
def allGather (worldSize rank : ℕ) (comm : Communicator) (sendBuf recvBuf : Buf)
    (count : ℕ) (dtype : DataType) : RankProg α :=
  let typeSize := getDataTypeSize dtype
  withRing worldSize rank comm fun prev next =>
    act (fun m => m.copy recvBuf (rank * count) sendBuf 0 count) <|
    forEach (List.range (worldSize - 1)) fun step =>
      let sendRank := (rank + worldSize - step) % worldSize
      let recvRank := (rank + worldSize - 1 - step) % worldSize
      let sendSlice : Slice Buf := ⟨recvBuf, sendRank * count, count⟩
      let recvSlice : Slice Buf := ⟨recvBuf, recvRank * count, count⟩
      -- send first for even; recv first for odd
      if rank % 2 = 0 then
        (send next sendSlice typeSize).andThen (recv prev recvSlice typeSize)
      else
        (recv prev recvSlice typeSize).andThen (send next sendSlice typeSize)

/-- `TopologyRing::ReduceScatter` -/
def reduceScatter (worldSize rank : ℕ) (comm : Communicator) (sendBuf recvBuf : Buf)
    (count : ℕ) (dtype : DataType) (red : Reducer α) : RankProg α :=
  (reduce worldSize rank comm sendBuf .reducedBuf (count * worldSize) dtype red 0).andThen
    (scatter worldSize rank comm .reducedBuf recvBuf count dtype 0)

/-- `TopologyRing::AllReduceTwoRanks` -/
def allReduceTwoRanks (rank : ℕ) (comm : Communicator) (sendBuf recvBuf : Buf)
    (count : ℕ) (dtype : DataType) (red : Reducer α) : RankProg α :=
  let typeSize := getDataTypeSize dtype
  withTransport comm (1 - rank) fun peer =>
    let own : Slice Buf := ⟨recvBuf, 0, count⟩
    let peerData : Slice Buf := ⟨.peerData, 0, count⟩
    act (fun m => m.copy recvBuf 0 sendBuf 0 count) <|
    (if rank = 0 then (send peer own typeSize).andThen (recv peer peerData typeSize)
      else (recv peer peerData typeSize).andThen (send peer own typeSize)).andThen <|
    doAct (red.perform ⟨.peerData, 0⟩ ⟨recvBuf, 0⟩ count)

/-- `chunk_size`: the element count divided by the world size, rounded up. -/
def chunkSize (worldSize count : ℕ) : ℕ := (count + worldSize - 1) / worldSize

/-- `std::min(chunk_size, count - chunk * chunk_size)` -/
def actualCount (worldSize count chunk : ℕ) : ℕ :=
  min (chunkSize worldSize count) (sizeSub count (chunk * chunkSize worldSize count))

/-- The part of `recv_buf` that a step of `AllReduce` sends or fills for a
chunk. -/
def chunkSlice (worldSize : ℕ) (recvBuf : Buf) (count chunk : ℕ) : Slice Buf :=
  ⟨recvBuf, chunk * chunkSize worldSize count, actualCount worldSize count chunk⟩

/-- A `Send` in a thread of its own, a `Recv` in the calling thread, then the
join.  Only the result of the `Recv` is looked at. -/
def sendThread (next : ℕ) (s : Slice Buf) (prev : ℕ) (d : Slice Buf) (typeSize : ℕ) :
    RankProg α :=
  par [⟨.send, next, s, typeSize⟩, ⟨.recv, prev, d, typeSize⟩]
    fun results => ret (results.getD 1 false)

namespace AllReduceReduceScatter

/-- `send_chunk` in a step of `AllReduceReduceScatter`. -/
def sendChunk (worldSize rank step : ℕ) : ℕ := (rank + worldSize - step) % worldSize

/-- `recv_chunk` in a step of `AllReduceReduceScatter`. -/
def recvChunk (worldSize rank step : ℕ) : ℕ := (rank + worldSize - 1 - step) % worldSize

end AllReduceReduceScatter

namespace AllReduceAllGather

/-- `send_chunk` in a step of `AllReduceAllGather`. -/
def sendChunk (worldSize rank step : ℕ) : ℕ := (rank + 1 + worldSize - step) % worldSize

/-- `recv_chunk` in a step of `AllReduceAllGather`. -/
def recvChunk (worldSize rank step : ℕ) : ℕ := (rank + worldSize - step) % worldSize

end AllReduceAllGather

/-- `TopologyRing::AllReduceReduceScatter` -/
def allReduceReduceScatter (worldSize rank : ℕ) (recvBuf : Buf) (count : ℕ)
    (dtype : DataType) (red : Reducer α) (prev next : ℕ) : RankProg α :=
  let typeSize := getDataTypeSize dtype
  forEach (List.range (worldSize - 1)) fun step =>
    let sendChunk := AllReduceReduceScatter.sendChunk worldSize rank step
    let recvChunk := AllReduceReduceScatter.recvChunk worldSize rank step
    let recvCount := actualCount worldSize count recvChunk
    (sendThread next (chunkSlice worldSize recvBuf count sendChunk)
      prev ⟨.tempBuffer, 0, recvCount⟩ typeSize).andThen <|
    doAct (red.perform ⟨.tempBuffer, 0⟩
      ⟨recvBuf, recvChunk * chunkSize worldSize count⟩ recvCount)

/-- `TopologyRing::AllReduceAllGather` -/
def allReduceAllGather (worldSize rank : ℕ) (recvBuf : Buf) (count : ℕ)
    (dtype : DataType) (prev next : ℕ) : RankProg α :=
  let typeSize := getDataTypeSize dtype
  forEach (List.range (worldSize - 1)) fun step =>
    let sendChunk := AllReduceAllGather.sendChunk worldSize rank step
    let recvChunk := AllReduceAllGather.recvChunk worldSize rank step
    sendThread next (chunkSlice worldSize recvBuf count sendChunk)
      prev (chunkSlice worldSize recvBuf count recvChunk) typeSize

/-- `TopologyRing::AllReduce` -/
def allReduce (worldSize rank : ℕ) (comm : Communicator) (sendBuf recvBuf : Buf)
    (count : ℕ) (dtype : DataType) (red : Reducer α) : RankProg α :=
  if worldSize = 2 then allReduceTwoRanks rank comm sendBuf recvBuf count dtype red
  else
    withRing worldSize rank comm fun prev next =>
      act (fun m => m.copy recvBuf 0 sendBuf 0 count) <|
      (allReduceReduceScatter worldSize rank recvBuf count dtype red prev next).andThen
        (allReduceAllGather worldSize rank recvBuf count dtype prev next)

/-- `TopologyRing::AllToAll` -/
def allToAll (worldSize rank : ℕ) (comm : Communicator) (sendBuf recvBuf : Buf)
    (count : ℕ) (dtype : DataType) : RankProg α :=
  act (fun m => m.copy recvBuf (rank * count) sendBuf (rank * count) count) <|
  forEach (List.range worldSize) fun src =>
    act (fun m =>
      if rank = src then m.copy .tempBuffer 0 sendBuf 0 (count * worldSize) else m) <|
    (broadcast worldSize rank comm .tempBuffer (count * worldSize) dtype src).andThen <|
    doAct fun m => m.copy recvBuf (src * count) .tempBuffer (rank * count) count

/-- One of the two rings of `Barrier`. -/
def barrierRound (rank prev next : ℕ) : RankProg α :=
  -- sizeof(int) bytes
  let token : Slice Buf := ⟨.dummy, 0, 1⟩
  if rank = 0 then (send next token 4).andThen (recv prev token 4)
  else (recv prev token 4).andThen (send next token 4)

/-- `TopologyRing::Barrier` -/
def barrier (worldSize rank : ℕ) (comm : Communicator) : RankProg α :=
  withRing worldSize rank comm fun prev next =>
    (barrierRound rank prev next).andThen (barrierRound rank prev next)

/-! ### Calls -/

/-- The part of a collective call that one rank makes. -/
def call (worldSize rank : ℕ) (comm : Communicator) : Call α → RankProg α
  | .broadcast buffer count dtype root =>
      broadcast worldSize rank comm (.user (buffer rank)) count dtype root
  | .gather sendBuf recvBuf count dtype root =>
      gather worldSize rank comm (.user (sendBuf rank)) (.user (recvBuf rank)) count dtype root
  | .scatter sendBuf recvBuf count dtype root =>
      scatter worldSize rank comm (.user (sendBuf rank)) (.user (recvBuf rank)) count dtype root
  | .reduce sendBuf recvBuf count dtype red root =>
      reduce worldSize rank comm (.user (sendBuf rank)) (.user (recvBuf rank)) count dtype red
        root
  | .allGather sendBuf recvBuf count dtype =>
      allGather worldSize rank comm (.user (sendBuf rank)) (.user (recvBuf rank)) count dtype
  | .reduceScatter sendBuf recvBuf count dtype red =>
      reduceScatter worldSize rank comm (.user (sendBuf rank)) (.user (recvBuf rank)) count
        dtype red
  | .allReduce sendBuf recvBuf count dtype red =>
      allReduce worldSize rank comm (.user (sendBuf rank)) (.user (recvBuf rank)) count dtype red
  | .allToAll sendBuf recvBuf count dtype =>
      allToAll worldSize rank comm (.user (sendBuf rank)) (.user (recvBuf rank)) count dtype
  | .barrier => barrier worldSize rank comm

end MiniCcl.TopologyRing
