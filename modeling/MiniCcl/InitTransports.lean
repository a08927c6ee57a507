/-
MiniCcl/InitTransports.lean

`Communicator::InitTransports` on all ranks at once, over TCP.

A rank listens, runs one thread for every peer that it connects to and one for every
peer that it accepts, joins them, and then sends its rank to the peers that it has
connected to.  An accept thread takes any pending connection and learns only from the
rank that it receives whose connection it is.  No operation fails, so `error_occurred`
stays false, and a connect succeeds as soon as the peer listens.

A connection is named by the two ranks whose connect thread has made it; the name is
not visible to the threads that accept it.  A listening socket is named by the rank
whose address it has in the node table.
-/
import MiniCcl.TopologyFactory
import MiniCcl.Confluence
import Mathlib.Logic.Function.Basic

namespace MiniCcl.InitTransports

/-! ### Peers -/

/-- The peers that each rank connects to, and those that it accepts. -/
structure Peers where
  connect : ℕ → List ℕ
  accept : ℕ → List ℕ

/-- The partition of the neighbours at the start of `InitTransports`. -/
def peers (topology : TopologyType) (worldSize : ℕ) : Peers where
  connect rank := (topology.getNeighbors worldSize rank).filter fun peer =>
    topology.shouldConnect worldSize rank peer
  accept rank := (topology.getNeighbors worldSize rank).filter fun peer =>
    !topology.shouldConnect worldSize rank peer

/-! ### States and steps -/

/-- The connection that a thread of `connector` has made to `acceptor`. -/
structure Connection where
  connector : ℕ
  acceptor : ℕ
  deriving DecidableEq, Repr

inductive Side
  | connector
  | acceptor
  deriving DecidableEq, Repr

/-- A transport: one end of a connection. -/
structure Endpoint where
  conn : Connection
  side : Side
  deriving DecidableEq, Repr

/-- The other end. -/
def Endpoint.other : Endpoint → Endpoint
  | ⟨conn, .connector⟩ => ⟨conn, .acceptor⟩
  | ⟨conn, .acceptor⟩ => ⟨conn, .connector⟩

/-- Where the main thread of a rank is. -/
inductive Phase
  | start
  | joinConnect
  | joinAccept
  | announcing (rest : List ℕ)
  | returned
  deriving DecidableEq, Repr

/-- A thread of `ConnectActivePeers`. -/
inductive ConnectThread
  | connecting
  | connected
  | returned
  deriving DecidableEq, Repr

/-- A thread of `AcceptPassivePeers`; `connector` names the connection that it has got. -/
inductive AcceptThread
  | waiting
  | accepted (connector : ℕ)
  | received (peerRank connector : ℕ)
  | returned (peerRank connector : ℕ)
  deriving DecidableEq, Repr

/-- The connection that the thread has got. -/
def AcceptThread.conn? : AcceptThread → Option ℕ
  | waiting => none
  | accepted connector => some connector
  | received _ connector => some connector
  | returned _ connector => some connector

structure State where
  phase : ℕ → Phase
  /-- The thread for a connection. -/
  connectThread : Connection → ConnectThread
  /-- The threads of a rank by their number. -/
  acceptThread : ℕ × ℕ → AcceptThread
  /-- The connections to a rank that it has not accepted. -/
  backlog : ℕ → List ℕ
  /-- What has been sent at an end and not been received at the other. -/
  stream : Endpoint → List ℕ
  /-- `transports` of a rank, for a peer. -/
  transports : ℕ × ℕ → Option Endpoint

namespace State

def init : State where
  phase _ := .start
  connectThread _ := .connecting
  acceptThread _ := .waiting
  backlog _ := []
  stream _ := []
  transports _ := none

/-- The listening socket of the rank is open. -/
def Listening (P : Peers) (s : State) (r : ℕ) : Prop :=
  s.phase r ≠ .start ∧ s.phase r ≠ .returned ∧ P.accept r ≠ []

end State

inductive Action
  | listen (r : ℕ)
  | connect (r peer : ℕ)
  | insertConnected (r peer : ℕ)
  | accept (r i connector : ℕ)
  | recvRank (r i : ℕ)
  | insertReceived (r i : ℕ)
  | joinConnect (r : ℕ)
  | joinAccept (r : ℕ)
  | sendRank (r peer : ℕ)
  | finish (r : ℕ)
  deriving DecidableEq, Repr

open Function in
inductive Step (P : Peers) (worldSize : ℕ) : Lts State Action
  -- and the threads are created
  | listen {s : State} {r : ℕ} (hr : r < worldSize) (h : s.phase r = .start) :
      Step P worldSize s (.listen r) { s with phase := update s.phase r .joinConnect }
  | connect {s : State} {r peer : ℕ} (hpeer : peer ∈ P.connect r) (hspawned : s.phase r ≠ .start)
      (h : s.connectThread ⟨r, peer⟩ = .connecting) (hlisten : s.Listening P peer) :
      Step P worldSize s (.connect r peer) { s with
        connectThread := update s.connectThread ⟨r, peer⟩ .connected
        backlog := update s.backlog peer (s.backlog peer ++ [r]) }
  | insertConnected {s : State} {r peer : ℕ} (h : s.connectThread ⟨r, peer⟩ = .connected) :
      Step P worldSize s (.insertConnected r peer) { s with
        connectThread := update s.connectThread ⟨r, peer⟩ .returned
        transports := update s.transports (r, peer) (some ⟨⟨r, peer⟩, .connector⟩) }
  -- any thread takes any connection
  | accept {s : State} {r i connector : ℕ} (hi : i < (P.accept r).length)
      (hspawned : s.phase r ≠ .start) (h : s.acceptThread (r, i) = .waiting)
      (hmem : connector ∈ s.backlog r) :
      Step P worldSize s (.accept r i connector) { s with
        acceptThread := update s.acceptThread (r, i) (.accepted connector)
        backlog := update s.backlog r ((s.backlog r).erase connector) }
  | recvRank {s : State} {r i connector peerRank : ℕ} {rest : List ℕ}
      (h : s.acceptThread (r, i) = .accepted connector)
      (hrecv : s.stream ⟨⟨connector, r⟩, .connector⟩ = peerRank :: rest) :
      Step P worldSize s (.recvRank r i) { s with
        acceptThread := update s.acceptThread (r, i) (.received peerRank connector)
        stream := update s.stream ⟨⟨connector, r⟩, .connector⟩ rest }
  | insertReceived {s : State} {r i connector peerRank : ℕ}
      (h : s.acceptThread (r, i) = .received peerRank connector) :
      Step P worldSize s (.insertReceived r i) { s with
        acceptThread := update s.acceptThread (r, i) (.returned peerRank connector)
        transports := update s.transports (r, peerRank) (some ⟨⟨connector, r⟩, .acceptor⟩) }
  | joinConnect {s : State} {r : ℕ} (h : s.phase r = .joinConnect)
      (hjoin : ∀ peer ∈ P.connect r, s.connectThread ⟨r, peer⟩ = .returned) :
      Step P worldSize s (.joinConnect r) { s with phase := update s.phase r .joinAccept }
  | joinAccept {s : State} {r : ℕ} (h : s.phase r = .joinAccept)
      (hjoin : ∀ i < (P.accept r).length,
        ∃ peerRank connector, s.acceptThread (r, i) = .returned peerRank connector) :
      Step P worldSize s (.joinAccept r)
        { s with phase := update s.phase r (.announcing (P.connect r)) }
  | sendRank {s : State} {r peer : ℕ} {rest : List ℕ} {e : Endpoint}
      (h : s.phase r = .announcing (peer :: rest)) (hget : s.transports (r, peer) = some e) :
      Step P worldSize s (.sendRank r peer) { s with
        phase := update s.phase r (.announcing rest)
        stream := update s.stream e (s.stream e ++ [r]) }
  | finish {s : State} {r : ℕ} (h : s.phase r = .announcing []) :
      Step P worldSize s (.finish r) { s with phase := update s.phase r .returned }

/-! ### What the peers satisfy -/

/-- Every rank connects to larger ranks, which accept it. -/
structure Peers.Paired (P : Peers) (worldSize : ℕ) : Prop where
  accept_of_connect : ∀ {r peer}, r < worldSize → peer ∈ P.connect r → r ∈ P.accept peer
  connect_of_accept : ∀ {r peer}, r < worldSize → peer ∈ P.accept r → r ∈ P.connect peer
  connect_lt : ∀ {r peer}, r < worldSize → peer ∈ P.connect r → r < peer ∧ peer < worldSize
  accept_lt : ∀ {r peer}, r < worldSize → peer ∈ P.accept r → peer < r
  nodup_connect : ∀ r, (P.connect r).Nodup
  nodup_accept : ∀ r, (P.accept r).Nodup

theorem mem_peers_connect {topology : TopologyType} {n r p : ℕ} :
    p ∈ (peers topology n).connect r ↔ p ∈ topology.getNeighbors n r ∧ r < p := by
  refine List.mem_filter.trans (and_congr_right fun hp => ?_)
  exact TopologyType.shouldConnect_iff hp

theorem mem_peers_accept {topology : TopologyType} {n r p : ℕ} (hn : 2 ≤ n) (hr : r < n) :
    p ∈ (peers topology n).accept r ↔ p ∈ topology.getNeighbors n r ∧ p < r := by
  refine List.mem_filter.trans (and_congr_right fun hp => ?_)
  have hne := (TopologyType.getNeighbors_wf hn hr hp).2
  have hiff := TopologyType.shouldConnect_iff hp
  rw [Bool.not_eq_true', ← Bool.not_eq_true, hiff]
  omega

theorem paired_peers (topology : TopologyType) {n : ℕ} (hn : 2 ≤ n) :
    (peers topology n).Paired n where
  accept_of_connect {r p} hr hp := by
    obtain ⟨hmem, hlt⟩ := mem_peers_connect.mp hp
    have hpn := (TopologyType.getNeighbors_wf hn hr hmem).1
    exact (mem_peers_accept hn hpn).mpr ⟨TopologyType.mem_getNeighbors_of_mem hr hmem, hlt⟩
  connect_of_accept {r p} hr hp := by
    obtain ⟨hmem, hlt⟩ := (mem_peers_accept hn hr).mp hp
    exact mem_peers_connect.mpr ⟨TopologyType.mem_getNeighbors_of_mem hr hmem, hlt⟩
  connect_lt {r p} hr hp := by
    obtain ⟨hmem, hlt⟩ := mem_peers_connect.mp hp
    exact ⟨hlt, (TopologyType.getNeighbors_wf hn hr hmem).1⟩
  accept_lt {r p} hr hp := ((mem_peers_accept hn hr).mp hp).2
  nodup_connect r := TopologyType.nodup_getNeighbors.filter _
  nodup_accept r := TopologyType.nodup_getNeighbors.filter _

end MiniCcl.InitTransports
