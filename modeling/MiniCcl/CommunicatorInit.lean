/-
MiniCcl/CommunicatorInit.lean

From nothing to results: `Communicator::Init` on all ranks, and a session after it.

A rank runs the bootstrap, connects to the peers that its node table names, and then makes
its calls over the transports that it has got.  The three layers run at the same time: a
rank may be in the middle of an `AllReduce` while another one still waits for connections,
and the first cells of the session follow the rank number on the same connection.  A
connect finds whoever listens at the address in the table of the rank that connects.

The state has the states of the layers side by side, and the step relation says what a
layer needs from the one below.  As in the layers, no socket operation fails and a connect
waits until the peer listens.  `startup_computes` and `startup_completes` say that
nothing more is needed: no order of the steps gets stuck or loses its way, and the session
gives what it would give if all connections had been there from the start.
-/
import MiniCcl.BootstrapEnds
import MiniCcl.Links
import MiniCcl.Steps

namespace MiniCcl

open Function

variable {α : Type*}

/-! ### Calls with the transports of a communicator -/

section Transports

variable {comm comm' : Communicator} (h : ∀ p, p ∈ comm.transports ↔ p ∈ comm'.transports)
include h

theorem Communicator.getTransport_congr : comm.getTransport = comm'.getTransport := by
  funext p
  simp only [Communicator.getTransport, h p]

theorem withTransport_congr : withTransport (α := α) comm = withTransport comm' := by
  funext p k
  rw [withTransport, withTransport, Communicator.getTransport_congr h]

/-- A collective call looks up transports and does nothing else with the communicator. -/
theorem TopologyType.call_congr (topology : TopologyType) (n r : ℕ) (c : Call α) :
    topology.call n r comm c = topology.call n r comm' c := by
  have hwith := withTransport_congr (α := α) h
  have hget := Communicator.getTransport_congr h
  cases topology with
  | ring =>
      have hring : TopologyRing.withRing (α := α) n r comm = TopologyRing.withRing n r comm' := by
        funext k
        rw [TopologyRing.withRing, TopologyRing.withRing, hget]
      cases c <;>
        simp only [call, TopologyRing.call, TopologyRing.broadcast, TopologyRing.gather,
          TopologyRing.scatter, TopologyRing.reduce, TopologyRing.allGather,
          TopologyRing.reduceScatter, TopologyRing.allReduce, TopologyRing.allReduceTwoRanks,
          TopologyRing.allToAll, TopologyRing.barrier, hring, hwith]
  | fullMesh =>
      have hthread : TopologyFullMesh.broadcastThread comm
          = TopologyFullMesh.broadcastThread comm' := by
        funext buffer count typeSize peer
        rw [TopologyFullMesh.broadcastThread, TopologyFullMesh.broadcastThread, hget]
      cases c <;>
        simp only [call, TopologyFullMesh.call, TopologyFullMesh.broadcast,
          TopologyFullMesh.gather, TopologyFullMesh.scatter, TopologyFullMesh.reduce,
          TopologyFullMesh.allGather, TopologyFullMesh.reduceScatter,
          TopologyFullMesh.allReduce, TopologyFullMesh.allToAll, TopologyFullMesh.barrier,
          hthread, hwith]

end Transports

/-- The part of rank `r` in an operation, with the transports of `comm`. -/
def Operation.runWith (topology : TopologyType) (n r : ℕ) (comm : Communicator) :
    Operation α → RankProg α
  | collective c => topology.call n r comm c
  | message source dest sendBuf recvBuf count dtype =>
      if r = source then comm.send r (.user sendBuf) count dtype dest
      else if r = dest then comm.recv r (.user recvBuf) count dtype source
      else .ret true

/-- What rank `r` runs, with the transports of `comm`. -/
def TopologyType.sessionWith (topology : TopologyType) (n r : ℕ) (comm : Communicator)
    (ops : List (Operation α)) : RankProg α :=
  Prog.collect (ops.map fun o => o.runWith topology n r comm) fun results =>
    .ret (decide (results = ops.map fun o => o.accepted topology n r))

/-- With transports to its neighbours a rank runs its part of the session. -/
theorem TopologyType.sessionWith_eq (topology : TopologyType) {n r : ℕ} {comm : Communicator}
    (h : ∀ p, p ∈ comm.transports ↔ p ∈ topology.getNeighbors n r) (ops : List (Operation α)) :
    topology.sessionWith n r comm ops = topology.session n ops r := by
  have h : ∀ p, p ∈ comm.transports ↔ p ∈ (topology.neighborComm n r).transports := h
  have hrun : ∀ o : Operation α, o.runWith topology n r comm = o.run topology n r := by
    intro o
    cases o with
    | collective c => exact topology.call_congr h n r c
    | message source dest sendBuf recvBuf count dtype =>
        simp only [Operation.runWith, Operation.run, Communicator.send, Communicator.recv,
          withTransport_congr h]
  rw [sessionWith, session, List.map_congr_left fun o _ => hrun o]

namespace CommunicatorInit

open InitTransports (Endpoint Connection)

/-! ### The system -/

/-- What the ranks are started with. -/
structure Config (α : Type*) where
  topology : TopologyType
  worldSize : ℕ
  /-- The address of the host of a rank. -/
  ip : ℕ → List UInt8
  /-- The port that a rank has found with its temporary transport. -/
  dataPort : ℕ → BitVec 16
  ops : List (Operation α)
  mem : ℕ → RankMem α

namespace Config

variable (C : Config α)

def info : ℕ → NodeInfo := Bootstrap.nodeInfo C.ip C.dataPort

def peers : InitTransports.Peers := InitTransports.peers C.topology C.worldSize

/-- The table fits into a frame, no two ranks have the same address and port, and the
roots and the ends of messages in the session are ranks. -/
structure Valid : Prop where
  two_le : 2 ≤ C.worldSize
  ip : ∀ r < C.worldSize, (C.ip r).length < 2 ^ 31
  frame : (Utils.encodeAllNodes (Bootstrap.table C.worldSize C.info)).length < 2 ^ 32
  distinct : ∀ p < C.worldSize, ∀ q < C.worldSize, C.ip p = C.ip q →
    C.dataPort p = C.dataPort q → p = q
  ops : ∀ o ∈ C.ops, o.Valid C.worldSize

/-- The session can be carried out as it is meant. -/
def WellPosed : Prop := ∀ o ∈ C.ops, o.WellPosed C.topology C.worldSize

end Config

structure State (α : Type*) where
  boot : Bootstrap.State
  links : InitTransports.State
  /-- `Init` has returned, and the rank has begun with the session. -/
  entered : ℕ → Bool
  node : ℕ → Node ℕ Buf α
  /-- The cells that have been sent at an end and not been received at the other. -/
  data : Endpoint → List α

namespace State

variable (C : Config α) (s : State α)

def init : State α where
  boot := .init
  links := .init
  entered _ := false
  node r := ⟨[], .ret false, C.mem r⟩
  data _ := []

/-- `all_nodes[q]` at rank `r` -/
def entry (r q : ℕ) : Option NodeInfo := (s.boot.returned r).bind fun allNodes => allNodes[q]?

/-- Where `Listen(my_info.data_port)` of rank `q` can be reached. -/
def address (q : ℕ) : Option (List UInt8 × BitVec 16) :=
  (s.entry q q).map fun info => (C.ip q, info.dataPort)

/-- At the address that rank `r` has for `peer`, `peer` listens and no other rank. -/
def Dials (r peer : ℕ) : Prop :=
  ∃ info, s.entry r peer = some info ∧ s.address C peer = some (info.ipAddr, info.dataPort) ∧
    ∀ q, q ≠ peer → s.links.Listening C.peers q →
      s.address C q ≠ some (info.ipAddr, info.dataPort)

/-- The keys of the map `transports`, in their order. -/
def communicator (r : ℕ) : Communicator :=
  ⟨(List.range C.worldSize).filter fun p => (s.links.transports (r, p)).isSome⟩

end State

end CommunicatorInit

/-- The rank that takes the step. -/
def InitTransports.Action.rank : InitTransports.Action → ℕ
  | listen r => r
  | connect r _ => r
  | insertConnected r _ => r
  | accept r _ _ => r
  | recvRank r _ => r
  | insertReceived r _ => r
  | joinConnect r => r
  | joinAccept r => r
  | sendRank r _ => r
  | finish r => r

namespace CommunicatorInit

open InitTransports (Endpoint Connection)

inductive Action
  | boot (a : Bootstrap.Action)
  | links (a : InitTransports.Action)
  | enter (r : ℕ)
  | act (r : ℕ)
  | send (i j : ℕ)
  | recv (i j : ℕ)
  deriving DecidableEq, Repr

inductive Step (C : Config α) : Lts (State α) Action
  | boot {s : State α} {a : Bootstrap.Action} {b : Bootstrap.State}
      (h : Bootstrap.Step C.worldSize C.info s.boot a b) :
      Step C s (.boot a) { s with boot := b }
  -- a rank that connects needs its table
  | links {s : State α} {a : InitTransports.Action} {l : InitTransports.State}
      (h : InitTransports.Step C.peers C.worldSize s.links a l)
      (hboot : (s.boot.returned a.rank).isSome)
      (hdial : ∀ r peer, a = .connect r peer → s.Dials C r peer) :
      Step C s (.links a) { s with links := l }
  | enter {s : State α} {r : ℕ} (hr : r < C.worldSize) (h : s.links.phase r = .returned)
      (hnew : s.entered r = false) :
      Step C s (.enter r) { s with
        entered := update s.entered r true
        node := update s.node r
          ⟨[], C.topology.sessionWith C.worldSize r (s.communicator C r) C.ops, (s.node r).mem⟩ }
  | act {s : State α} {r : ℕ} {x : Node ℕ Buf α} (h : (s.node r).local? = some x) :
      Step C s (.act r) { s with node := update s.node r x }
  | send {s : State α} {i j : ℕ} {op : Xfer ℕ Buf} {e : Endpoint}
      (h : (s.node i).find (.send, j) = some op) (hget : s.links.transports (i, j) = some e) :
      Step C s (.send i j) { s with
        node := update s.node i ⟨(s.node i).without (.send, j), (s.node i).next, (s.node i).mem⟩
        data := update s.data e (s.data e ++ (s.node i).mem.read op.slice) }
  -- the rank number of the peer comes first on a connection
  | recv {s : State α} {i j : ℕ} {op : Xfer ℕ Buf} {e : Endpoint}
      (h : (s.node j).find (.recv, i) = some op) (hget : s.links.transports (j, i) = some e)
      (hfirst : s.links.stream e.other = [])
      (hlen : op.slice.len ≤ (s.data e.other).length) :
      Step C s (.recv i j) { s with
        node := update s.node j ⟨(s.node j).without (.recv, i), (s.node j).next,
          (s.node j).mem.write op.slice ((s.data e.other).take op.slice.len)⟩
        data := update s.data e.other ((s.data e.other).drop op.slice.len) }

end CommunicatorInit

end MiniCcl
