/-
MiniCcl/BootstrapFailures.lean

`Bootstrap::Run` on all ranks at once, where every call can fail and every rank can die.

A rank that fails closes what it has open and returns false, and whoever reads from it
sees the end of the stream after what was written; a rank that dies, on the signal of a
`send` to a closed connection for example, has everything closed by the system.  Nobody is
told otherwise.  Three things hold in all runs.  A table that is returned is complete, even
if other ranks return false (`failures_agree`).  Every descriptor is closed once
(`descriptors_closed`).  And there is one way for the ranks to block each other: the master
waits in `accept` for a worker that has given up (`failures_block_iff`).
-/
import MiniCcl.BootstrapEnds
import MiniCcl.Framing

namespace MiniCcl.Bootstrap.Failing

open Utils Function
open scoped List

/-! ### States -/

/-- How often a descriptor has been opened and closed. -/
structure Fd where
  opened : ℕ
  closed : ℕ
  deriving DecidableEq, Repr

namespace Fd

def unused : Fd := ⟨0, 0⟩

/-- `socket` or `accept` returns the descriptor. -/
def acquire (fd : Fd) : Fd := { fd with opened := fd.opened + 1 }

def close (fd : Fd) : Fd := { fd with closed := fd.closed + 1 }

/-- The system closes what a dead process has open. -/
def reap (fd : Fd) (held : ℕ) : Fd := { fd with closed := fd.closed + held }

end Fd

/-- Where `RunMaster` is.  A worker stands for the connection to it. -/
inductive MasterPc
  | start
  | binding
  | accepting (workerSocks : List ℕ)
  | receiving (received rest : List ℕ) (allNodes : List NodeInfo)
  | broadcasting (sent rest : List ℕ) (allNodes : List NodeInfo)
  /-- `CloseAllSockets`, then `close(listen_fd)`. -/
  | closing (workerSocks : List ℕ) (result : Option (List NodeInfo))
  | returned (result : Option (List NodeInfo))
  | fault
  deriving DecidableEq, Repr

namespace MasterPc

/-- The connections that the master has open. -/
def workerSocks : MasterPc → List ℕ
  | accepting socks => socks
  | receiving received rest _ => received ++ rest
  | broadcasting sent rest _ => sent ++ rest
  | closing socks _ => socks
  | _ => []

/-- How many descriptors of the listening socket the master has open. -/
def listenFds : MasterPc → ℕ
  | start => 0
  | returned _ => 0
  | fault => 0
  | _ => 1

/-- What `RunMaster` does when its next call fails. -/
def afterFailure (worldSize : ℕ) : MasterPc → Option MasterPc
  | start => some (returned none)
  | binding => some (closing [] none)
  | accepting socks =>
      if socks.length < worldSize - 1 then some (closing socks none) else none
  | receiving received (r :: rest) _ => some (closing (received ++ r :: rest) none)
  | _ => none

end MasterPc

/-- Where `RunWorker` is. -/
inductive WorkerPc
  | start
  | connecting (attempt : Fin 30)
  | connected
  | waiting
  | closing (result : Option (List NodeInfo))
  | returned (result : Option (List NodeInfo))
  | fault
  deriving DecidableEq, Repr

namespace WorkerPc

/-- How many descriptors the worker has open. -/
def sockfds : WorkerPc → ℕ
  | start => 0
  | returned _ => 0
  | fault => 0
  | _ => 1

/-- After a `connect` that has failed. -/
def afterAttempt (attempt : Fin 30) : WorkerPc :=
  if h : attempt.val + 1 < 30 then connecting ⟨attempt.val + 1, h⟩ else closing none

/-- What `RunWorker` does when its next call fails; the address is looked at before the
first attempt. -/
def afterFailure : WorkerPc → Option WorkerPc
  | start => some (returned none)
  | connecting attempt => if attempt.val = 0 then some (closing none) else none
  | waiting => some (closing none)
  | _ => none

def result : WorkerPc → Option (List NodeInfo)
  | closing nodes => nodes
  | returned nodes => nodes
  | _ => none

end WorkerPc

/-- A worker and its connection: the streams to and from the master, and the descriptors
at its own end and at the master's. -/
structure Worker where
  pc : WorkerPc
  up : List UInt8
  down : List UInt8
  sockfd : Fd
  workerSock : Fd
  deriving DecidableEq, Repr

structure State where
  master : MasterPc
  listenFd : Fd
  listening : Bool
  /-- The connections that have not been accepted. -/
  pending : List ℕ
  worker : ℕ → Worker

namespace State

def init : State where
  master := .start
  listenFd := .unused
  listening := false
  pending := []
  worker _ := ⟨.start, [], [], .unused, .unused⟩

def setWorker (s : State) (r : ℕ) (w : Worker) : State :=
  { s with worker := update s.worker r w }

/-- What `Run` has returned on a rank: the table, or false. -/
def returned (s : State) (r : ℕ) : Option (Option (List NodeInfo)) :=
  if r = 0 then
    match s.master with
    | .returned result => some result
    | _ => none
  else
    match (s.worker r).pc with
    | .returned result => some result
    | _ => none

/-- The worker's end of its connection is closed. -/
def EndedUp (s : State) (r : ℕ) : Prop := 0 < (s.worker r).sockfd.closed

/-- The master's end is closed; connections that have not been accepted go with the
listening socket. -/
def EndedDown (s : State) (r : ℕ) : Prop :=
  0 < (s.worker r).workerSock.closed ∨ r ∈ s.pending ∧ 0 < s.listenFd.closed

end State

/-! ### Steps -/

inductive Action
  | createListenSocket
  | listen
  | accept (r : ℕ)
  | acceptedAll
  | recvNodeInfo (r : ℕ)
  | endOfNodeInfo (r : ℕ)
  | receivedAll
  | broadcast (r : ℕ)
  | broadcastAll
  | closeWorkerSock (r : ℕ)
  | closeListenFd
  | createSocket (r : ℕ)
  | connect (r : ℕ)
  | refused (r : ℕ)
  | sendNodeInfo (r : ℕ)
  | recvAllNodes (r : ℕ)
  | endOfAllNodes (r : ℕ)
  | closeSockfd (r : ℕ)
  /-- A call of the rank fails. -/
  | fail (r : ℕ)
  /-- The process of the rank dies. -/
  | die (r : ℕ)
  deriving DecidableEq, Repr

/-- The failures and the deaths. -/
def Action.Fault : Action → Prop
  | fail _ => True
  | die _ => True
  | _ => False

/-- The steps of all ranks, where rank `r` passes in `info r`. -/
inductive Step (worldSize : ℕ) (info : ℕ → NodeInfo) : Lts State Action
  -- the master
  | createListenSocket {s : State} (h : s.master = .start) :
      Step worldSize info s .createListenSocket
        { s with master := .binding, listenFd := s.listenFd.acquire }
  | listen {s : State} (h : s.master = .binding) :
      Step worldSize info s .listen { s with master := .accepting [], listening := true }
  | accept {s : State} {r : ℕ} {socks : List ℕ} (h : s.master = .accepting socks)
      (hmore : socks.length < worldSize - 1) (hr : r ∈ s.pending) :
      Step worldSize info s (.accept r)
        ({ s with master := .accepting (socks ++ [r]), pending := s.pending.erase r }.setWorker r
          { s.worker r with workerSock := (s.worker r).workerSock.acquire })
  | acceptedAll {s : State} {socks : List ℕ} (h : s.master = .accepting socks)
      (hmore : ¬ socks.length < worldSize - 1) :
      Step worldSize info s .acceptedAll
        { s with master := .receiving [] socks (masterTable worldSize (info 0)) }
  | recvNodeInfo {s : State} {r : ℕ} {received rest : List ℕ} {allNodes : List NodeInfo}
      {buffer up : List UInt8} {node : NodeInfo}
      (h : s.master = .receiving received (r :: rest) allNodes)
      (hrecv : recvAll (s.worker r).up = some (buffer, up))
      (hnode : Bootstrap.recvNodeInfo (some buffer) = .ok (some node))
      (hin : InTable allNodes node) :
      Step worldSize info s (.recvNodeInfo r)
        ({ s with master := .receiving (received ++ [r]) rest (store allNodes node) }.setWorker r
          { s.worker r with up := up })
  | recvNodeInfoFault {s : State} {r : ℕ} {received rest : List ℕ} {allNodes : List NodeInfo}
      {buffer up : List UInt8} (h : s.master = .receiving received (r :: rest) allNodes)
      (hrecv : recvAll (s.worker r).up = some (buffer, up))
      (hnode : ∀ node, Bootstrap.recvNodeInfo (some buffer) = .ok (some node) →
        ¬ InTable allNodes node) :
      Step worldSize info s (.recvNodeInfo r) { s with master := .fault }
  | endOfNodeInfo {s : State} {r : ℕ} {received rest : List ℕ} {allNodes : List NodeInfo}
      (h : s.master = .receiving received (r :: rest) allNodes)
      (hrecv : recvAll (s.worker r).up = none) (hend : s.EndedUp r) :
      Step worldSize info s (.endOfNodeInfo r)
        { s with master := .closing (received ++ r :: rest) none }
  | receivedAll {s : State} {received : List ℕ} {allNodes : List NodeInfo}
      (h : s.master = .receiving received [] allNodes) :
      Step worldSize info s .receivedAll { s with master := .broadcasting [] received allNodes }
  | broadcast {s : State} {r : ℕ} {sent rest : List ℕ} {allNodes : List NodeInfo}
      (h : s.master = .broadcasting sent (r :: rest) allNodes) :
      Step worldSize info s (.broadcast r)
        ({ s with master := .broadcasting (sent ++ [r]) rest allNodes }.setWorker r
          { s.worker r with down := (s.worker r).down ++ sendAll (encodeAllNodes allNodes) })
  | broadcastAll {s : State} {sent : List ℕ} {allNodes : List NodeInfo}
      (h : s.master = .broadcasting sent [] allNodes) :
      Step worldSize info s .broadcastAll { s with master := .closing sent (some allNodes) }
  | closeWorkerSock {s : State} {r : ℕ} {socks : List ℕ} {result : Option (List NodeInfo)}
      (h : s.master = .closing (r :: socks) result) :
      Step worldSize info s (.closeWorkerSock r)
        ({ s with master := .closing socks result }.setWorker r
          { s.worker r with workerSock := (s.worker r).workerSock.close })
  | closeListenFd {s : State} {result : Option (List NodeInfo)}
      (h : s.master = .closing [] result) :
      Step worldSize info s .closeListenFd
        { s with master := .returned result, listenFd := s.listenFd.close, listening := false }
  -- a worker
  | createSocket {s : State} {r : ℕ} (hr : IsWorker worldSize r)
      (h : (s.worker r).pc = .start) :
      Step worldSize info s (.createSocket r) (s.setWorker r
        { s.worker r with pc := .connecting 0, sockfd := (s.worker r).sockfd.acquire })
  | connect {s : State} {r : ℕ} {attempt : Fin 30} (hr : IsWorker worldSize r)
      (h : (s.worker r).pc = .connecting attempt) (hlisten : s.listening = true) :
      Step worldSize info s (.connect r)
        ({ s with pending := s.pending ++ [r] }.setWorker r { s.worker r with pc := .connected })
  | refused {s : State} {r : ℕ} {attempt : Fin 30} (hr : IsWorker worldSize r)
      (h : (s.worker r).pc = .connecting attempt) (hlisten : s.listening = false) :
      Step worldSize info s (.refused r) (s.setWorker r
        { s.worker r with pc := .afterAttempt attempt })
  | sendNodeInfo {s : State} {r : ℕ} (hr : IsWorker worldSize r)
      (h : (s.worker r).pc = .connected) :
      Step worldSize info s (.sendNodeInfo r) (s.setWorker r
        { s.worker r with
          pc := .waiting
          up := (s.worker r).up ++ sendAll (encodeNodeInfo [] (info r)) })
  | recvAllNodes {s : State} {r : ℕ} {buffer down : List UInt8} {allNodes : List NodeInfo}
      {offset : ℕ} (hr : IsWorker worldSize r) (h : (s.worker r).pc = .waiting)
      (hrecv : recvAll (s.worker r).down = some (buffer, down))
      (hnodes : (decodeAllNodes buffer).run 0 = .ok (allNodes, offset)) :
      Step worldSize info s (.recvAllNodes r) (s.setWorker r
        { s.worker r with pc := .closing (some allNodes), down := down })
  | recvAllNodesFault {s : State} {r : ℕ} {buffer down : List UInt8} {fault : Fault}
      (hr : IsWorker worldSize r) (h : (s.worker r).pc = .waiting)
      (hrecv : recvAll (s.worker r).down = some (buffer, down))
      (hnodes : (decodeAllNodes buffer).run 0 = .error fault) :
      Step worldSize info s (.recvAllNodes r) (s.setWorker r { s.worker r with pc := .fault })
  | endOfAllNodes {s : State} {r : ℕ} (hr : IsWorker worldSize r)
      (h : (s.worker r).pc = .waiting) (hrecv : recvAll (s.worker r).down = none)
      (hend : s.EndedDown r) :
      Step worldSize info s (.endOfAllNodes r) (s.setWorker r
        { s.worker r with pc := .closing none })
  | closeSockfd {s : State} {r : ℕ} {result : Option (List NodeInfo)}
      (hr : IsWorker worldSize r) (h : (s.worker r).pc = .closing result) :
      Step worldSize info s (.closeSockfd r) (s.setWorker r
        { s.worker r with pc := .returned result, sockfd := (s.worker r).sockfd.close })
  -- failures
  | failMaster {s : State} {pc : MasterPc} (h : s.master.afterFailure worldSize = some pc) :
      Step worldSize info s (.fail 0) { s with master := pc }
  | failBroadcast {s : State} {r : ℕ} {sent rest : List ℕ} {allNodes : List NodeInfo}
      {part : List UInt8} (h : s.master = .broadcasting sent (r :: rest) allNodes)
      (hpart : part <+: sendAll (encodeAllNodes allNodes))
      (hlt : part.length < (sendAll (encodeAllNodes allNodes)).length) :
      Step worldSize info s (.fail 0)
        ({ s with master := .closing (sent ++ r :: rest) none }.setWorker r
          { s.worker r with down := (s.worker r).down ++ part })
  | failWorker {s : State} {r : ℕ} {pc : WorkerPc} (hr : IsWorker worldSize r)
      (h : (s.worker r).pc.afterFailure = some pc) :
      Step worldSize info s (.fail r) (s.setWorker r { s.worker r with pc := pc })
  | failConnect {s : State} {r : ℕ} {attempt : Fin 30} (hr : IsWorker worldSize r)
      (h : (s.worker r).pc = .connecting attempt) :
      Step worldSize info s (.fail r) (s.setWorker r
        { s.worker r with pc := .afterAttempt attempt })
  | failSend {s : State} {r : ℕ} {part : List UInt8} (hr : IsWorker worldSize r)
      (h : (s.worker r).pc = .connected) (hpart : part <+: sendAll (encodeNodeInfo [] (info r)))
      (hlt : part.length < (sendAll (encodeNodeInfo [] (info r))).length) :
      Step worldSize info s (.fail r) (s.setWorker r
        { s.worker r with pc := .closing none, up := (s.worker r).up ++ part })
  | dieMaster {s : State} (h : ∀ result, s.master ≠ .returned result) :
      Step worldSize info s (.die 0)
        { s with
          master := .returned none
          listenFd := s.listenFd.reap s.master.listenFds
          listening := false
          worker := fun r => { s.worker r with
            workerSock := (s.worker r).workerSock.reap (s.master.workerSocks.count r) } }
  | dieWorker {s : State} {r : ℕ} (hr : IsWorker worldSize r)
      (h : ∀ result, (s.worker r).pc ≠ .returned result) :
      Step worldSize info s (.die r) (s.setWorker r
        { s.worker r with
          pc := .returned none
          sockfd := (s.worker r).sockfd.reap (s.worker r).pc.sockfds })

/-! ### The invariant -/

/-- The master has not read the `NodeInfo` of the worker. -/
def MasterPc.Unread (r : ℕ) : MasterPc → Prop
  | start => True
  | binding => True
  | accepting _ => True
  | receiving received _ _ => r ∉ received
  | _ => False

/-- The master has not sent the table to the worker. -/
def MasterPc.Untold (r : ℕ) : MasterPc → Prop
  | broadcasting sent _ _ => r ∉ sent
  | closing _ _ => False
  | returned _ => False
  | fault => False
  | _ => True

/-- The master has got all that goes into the table. -/
def MasterPc.Collected : MasterPc → Prop
  | broadcasting _ _ _ => True
  | closing _ (some _) => True
  | returned (some _) => True
  | _ => False

/-- The table is right as far as the master has come. -/
def MasterPc.Ok (worldSize : ℕ) (info : ℕ → NodeInfo) : MasterPc → Prop
  | receiving received rest allNodes =>
      Filled worldSize info received allNodes ∧ received ++ rest ~ workers worldSize
  | broadcasting sent rest allNodes =>
      allNodes = table worldSize info ∧ sent ++ rest ~ workers worldSize
  | closing _ (some allNodes) => allNodes = table worldSize info
  | returned (some allNodes) => allNodes = table worldSize info
  | fault => False
  | _ => True

/-- What holds of a worker of which the master has `held` descriptors open, which is
pending or not, and whose part the master has not done. -/
structure Worker.Ok (worldSize : ℕ) (info : ℕ → NodeInfo) (r held : ℕ)
    (pending unread untold : Prop) (w : Worker) : Prop where
  isWorker : w.pc ≠ .start → IsWorker worldSize r
  noFault : w.pc ≠ .fault
  sockfd : w.sockfd.opened = w.sockfd.closed + w.pc.sockfds
  sockfd_le : w.sockfd.opened ≤ 1
  sockfd_start : w.pc = .start → w.sockfd.opened = 0
  sockfd_opened : pending ∨ w.workerSock.opened = 1 → w.sockfd.opened = 1
  workerSock : w.workerSock.opened = w.workerSock.closed + held
  workerSock_le : w.workerSock.opened ≤ 1
  pending_iff : pending → w.workerSock.opened = 0
  unmet : w.pc = .start ∨ (∃ attempt, w.pc = .connecting attempt) →
    ¬ pending ∧ w.workerSock.opened = 0
  met : w.pc = .connected ∨ w.pc = .waiting → pending ∨ w.workerSock.opened = 1
  prefix_up : w.up <+: sendAll (encodeNodeInfo [] (info r))
  up_nil : w.pc = .start ∨ (∃ attempt, w.pc = .connecting attempt) ∨ w.pc = .connected →
    w.up = []
  up_frame : unread → w.pc = .waiting → w.up = sendAll (encodeNodeInfo [] (info r))
  prefix_down : w.down <+: sendAll (encodeAllNodes (table worldSize info))
  down_nil : untold → w.down = []
  result : ∀ nodes, w.pc.result = some nodes → nodes = table worldSize info

/-- Somebody has the table or is about to get it. -/
def State.Collected (s : State) : Prop :=
  s.master.Collected ∨ ∃ r, (s.worker r).down ≠ [] ∨ ∃ nodes, (s.worker r).pc.result = some nodes

structure Inv (worldSize : ℕ) (info : ℕ → NodeInfo) (s : State) : Prop where
  master : s.master.Ok worldSize info
  listenFd : s.listenFd.opened = s.listenFd.closed + s.master.listenFds
  listenFd_le : s.listenFd.opened ≤ 1
  listenFd_start : s.master = .start → s.listenFd.opened = 0
  listening : s.listening = true → s.listenFd.opened = 1
  pending : s.pending.Nodup
  pending_opened : s.pending ≠ [] → s.listenFd.opened = 1
  worker : ∀ r, (s.worker r).Ok worldSize info r (s.master.workerSocks.count r) (r ∈ s.pending)
    (s.master.Unread r) (s.master.Untold r)
  collected : s.Collected → ∀ r, IsWorker worldSize r → (s.worker r).workerSock.opened = 1

/-! ### What one step preserves -/

section Step

variable {worldSize r : ℕ} {info : ℕ → NodeInfo} {s t : State} {w : Worker} {a : Action}

@[simp] theorem setWorker_master : (s.setWorker r w).master = s.master := rfl

@[simp] theorem setWorker_worker : (s.setWorker r w).worker r = w := by
  show update s.worker r w r = w
  exact update_self r w s.worker

@[simp] theorem setWorker_worker_of_ne {q : ℕ} (h : q ≠ r) :
    (s.setWorker r w).worker q = s.worker q := by
  show update s.worker r w q = s.worker q
  exact update_of_ne h w s.worker

theorem inv_init : Inv worldSize info State.init where
  master := trivial
  listenFd := rfl
  listenFd_le := Nat.zero_le 1
  listenFd_start _ := rfl
  listening h := Bool.noConfusion h
  pending := List.nodup_nil
  pending_opened h := absurd rfl h
  worker r :=
    { isWorker := fun h => absurd rfl h
      noFault := WorkerPc.noConfusion
      sockfd := rfl
      sockfd_le := Nat.zero_le 1
      sockfd_start := fun _ => rfl
      sockfd_opened := by rintro (h | h) <;> cases h
      workerSock := rfl
      workerSock_le := Nat.zero_le 1
      pending_iff := fun _ => rfl
      unmet := fun _ => ⟨List.not_mem_nil, rfl⟩
      met := by rintro (h | h) <;> cases h
      prefix_up := List.nil_prefix
      up_nil := fun _ => rfl
      up_frame := fun _ h => by cases h
      prefix_down := List.nil_prefix
      down_nil := fun _ => rfl
      result := fun nodes h => by cases h }
  collected := by
    rintro (h | ⟨r, h | ⟨nodes, h⟩⟩)
    · exact h.elim
    · exact absurd rfl h
    · cases h

namespace Inv

variable (h : Inv worldSize info s)
include h

/-- A step of a worker and the master, which takes it as pending or not. -/
theorem goOn (pc : MasterPc) (pending : List ℕ)
    (hw : w.Ok worldSize info r (pc.workerSocks.count r) (r ∈ pending) (pc.Unread r)
      (pc.Untold r))
    (hopened : (s.worker r).workerSock.opened ≤ w.workerSock.opened)
    (hpc : pc.Ok worldSize info) (hfds : pc.listenFds = s.master.listenFds)
    (hstart : pc = .start → s.master = .start) (hpending : pending.Nodup)
    (hlisten : pending ≠ [] → s.listenFd.opened = 1)
    (hothers : ∀ q ≠ r, pc.workerSocks.count q = s.master.workerSocks.count q ∧
      (q ∈ pending ↔ q ∈ s.pending) ∧ (pc.Unread q → s.master.Unread q) ∧
      (pc.Untold q → s.master.Untold q))
    (hnew : pc.Collected ∨ w.down ≠ [] ∨ (∃ nodes, w.pc.result = some nodes) →
      ∀ q, IsWorker worldSize q → (s.worker q).workerSock.opened = 1) :
    Inv worldSize info ({ s with master := pc, pending := pending }.setWorker r w) where
  master := hpc
  listenFd := by
    show s.listenFd.opened = s.listenFd.closed + pc.listenFds
    rw [hfds]
    exact h.listenFd
  listenFd_le := h.listenFd_le
  listenFd_start hpc := h.listenFd_start (hstart hpc)
  listening := h.listening
  pending := hpending
  pending_opened := hlisten
  worker q := by
    by_cases hq : q = r
    · subst hq
      rw [setWorker_worker]
      exact hw
    · obtain ⟨hcount, hmem, hunread, huntold⟩ := hothers q hq
      rw [setWorker_worker_of_ne hq]
      show Worker.Ok worldSize info q (pc.workerSocks.count q) (q ∈ pending) (pc.Unread q)
        (pc.Untold q) (s.worker q)
      rw [hcount, hmem]
      exact { h.worker q with
        up_frame := fun hu => (h.worker q).up_frame (hunread hu)
        down_nil := fun hu => (h.worker q).down_nil (huntold hu) }
  collected hcollected q hq := by
    have hbefore : (s.worker q).workerSock.opened = 1 := by
      rcases hcollected with hpc | ⟨p, hp⟩
      · exact hnew (.inl hpc) q hq
      · by_cases hpr : p = r
        · subst hpr
          rw [setWorker_worker] at hp
          exact hnew (.inr hp) q hq
        · rw [setWorker_worker_of_ne hpr] at hp
          exact h.collected (.inr ⟨p, hp⟩) q hq
    by_cases hqr : q = r
    · subst hqr
      rw [setWorker_worker]
      exact le_antisymm hw.workerSock_le (hbefore ▸ hopened)
    · rw [setWorker_worker_of_ne hqr]
      exact hbefore

/-- A step of a worker alone. -/
theorem setWorker
    (hw : w.Ok worldSize info r (s.master.workerSocks.count r) (r ∈ s.pending)
      (s.master.Unread r) (s.master.Untold r))
    (hopened : w.workerSock = (s.worker r).workerSock)
    (hnew : w.down ≠ [] ∨ (∃ nodes, w.pc.result = some nodes) → s.Collected) :
    Inv worldSize info (s.setWorker r w) := by
  refine h.goOn _ _ hw (by rw [hopened]) h.master rfl id h.pending h.pending_opened
    (fun q _ => ⟨rfl, Iff.rfl, id, id⟩) ?_
  exact fun hcollected => h.collected (hcollected.elim .inl hnew)

/-- A step of the master alone. -/
theorem setMaster {pc : MasterPc} {fd : Fd} {listening : Bool} (hpc : pc.Ok worldSize info)
    (hfd : fd.opened = fd.closed + pc.listenFds) (hle : fd.opened ≤ 1)
    (hkeep : s.listenFd.opened = 1 → fd.opened = 1) (hstart : pc ≠ .start)
    (hlistening : listening = true → fd.opened = 1)
    (hcount : ∀ q, pc.workerSocks.count q = s.master.workerSocks.count q)
    (hunread : ∀ q, pc.Unread q → s.master.Unread q)
    (huntold : ∀ q, pc.Untold q → s.master.Untold q)
    (hnew : pc.Collected → ∀ q, IsWorker worldSize q → (s.worker q).workerSock.opened = 1) :
    Inv worldSize info { s with master := pc, listenFd := fd, listening := listening } where
  master := hpc
  listenFd := hfd
  listenFd_le := hle
  listenFd_start hpc := absurd hpc hstart
  listening := hlistening
  pending := h.pending
  pending_opened hpending := hkeep (h.pending_opened hpending)
  worker q := by
    show Worker.Ok worldSize info q (pc.workerSocks.count q) (q ∈ s.pending) (pc.Unread q)
      (pc.Untold q) (s.worker q)
    rw [hcount q]
    exact { h.worker q with
      up_frame := fun hu => (h.worker q).up_frame (hunread q hu)
      down_nil := fun hu => (h.worker q).down_nil (huntold q hu) }
  collected hcollected := hcollected.elim hnew fun hw => h.collected (.inr hw)

/-- A step of the master within its loops. -/
theorem setPc {pc : MasterPc} (hpc : pc.Ok worldSize info)
    (hfds : pc.listenFds = s.master.listenFds) (hstart : pc ≠ .start)
    (hcount : ∀ q, pc.workerSocks.count q = s.master.workerSocks.count q)
    (hunread : ∀ q, pc.Unread q → s.master.Unread q)
    (huntold : ∀ q, pc.Untold q → s.master.Untold q)
    (hnew : pc.Collected → ∀ q, IsWorker worldSize q → (s.worker q).workerSock.opened = 1) :
    Inv worldSize info { s with master := pc } := by
  refine h.setMaster hpc ?_ h.listenFd_le id hstart h.listening hcount hunread huntold hnew
  rw [hfds]
  exact h.listenFd

/-! What the descriptors say about the connections that the master has open. -/

theorem nodup_workerSocks : s.master.workerSocks.Nodup := by
  rw [List.nodup_iff_count_le_one]
  intro q
  have hsock := (h.worker q).workerSock
  have hle := (h.worker q).workerSock_le
  omega

theorem opened_of_mem (hr : r ∈ s.master.workerSocks) :
    (s.worker r).workerSock.opened = 1 ∧ (s.worker r).workerSock.closed = 0 := by
  have hpos := List.count_pos_iff.mpr hr
  have hsock := (h.worker r).workerSock
  have hle := (h.worker r).workerSock_le
  omega

theorem isWorker_of_opened (hr : (s.worker r).workerSock.opened = 1) : IsWorker worldSize r := by
  refine (h.worker r).isWorker fun hpc => ?_
  have hzero := ((h.worker r).unmet (.inl hpc)).2
  omega

end Inv

/-- Of a part of a frame `RecvAll` reads nothing. -/
theorem eq_frame_of_recvAll {data part buffer rest : List UInt8} (hdata : data.length < 2 ^ 32)
    (hpart : part <+: sendAll data) (hrecv : recvAll part = some (buffer, rest)) :
    part = sendAll data ∧ buffer = data ∧ rest = [] := by
  obtain ⟨missing, heq⟩ := hpart
  have hall := Framing.recvAll_append missing hrecv
  have hframe := recvAll_sendAll hdata []
  rw [List.append_nil, ← heq, hall] at hframe
  obtain ⟨rfl, hnil⟩ := Prod.mk.inj (Option.some.inj hframe)
  obtain ⟨rfl, rfl⟩ := List.append_eq_nil_iff.mp hnil
  rw [List.append_nil] at heq
  exact ⟨heq, rfl, rfl⟩

theorem length_frame_lt (hinfo : Sendable worldSize info) (hr : r < worldSize) :
    (encodeNodeInfo [] (info r)).length < 2 ^ 32 := by
  have hip := hinfo.ip r hr
  rw [length_encodeNodeInfo]
  omega

namespace Inv

variable (h : Inv worldSize info s)
include h

theorem accept {socks : List ℕ} (hm : s.master = .accepting socks) (hr : r ∈ s.pending) :
    Inv worldSize info
      ({ s with master := .accepting (socks ++ [r]), pending := s.pending.erase r }.setWorker r
        { s.worker r with workerSock := (s.worker r).workerSock.acquire }) := by
  have hw := h.worker r
  have hzero := hw.pending_iff hr
  have hnot : r ∉ s.pending.erase r := fun hmem => (h.pending.mem_erase_iff.mp hmem).1 rfl
  have hsock := hw.workerSock
  rw [hm] at hsock hw
  refine h.goOn _ _ ?_ (Nat.le_succ _) trivial (by rw [hm]; rfl) MasterPc.noConfusion
    (h.pending.erase r) ?_ ?_ ?_
  · exact { hw with
      sockfd_opened := fun _ => hw.sockfd_opened (.inl hr)
      workerSock := by
        show _ + 1 = _ + (socks ++ [r]).count r
        rw [List.count_append, List.count_singleton_self, hsock]
        rfl
      workerSock_le := by
        show _ + 1 ≤ 1
        omega
      pending_iff := fun hmem => absurd hmem hnot
      unmet := fun hpc => absurd hr (hw.unmet hpc).1
      met := fun _ => .inr (by show _ + 1 = 1; omega)
      up_frame := hw.up_frame
      down_nil := hw.down_nil }
  · intro hne
    refine h.pending_opened fun hnil => hne ?_
    rw [hnil]
    rfl
  · intro q hq
    rw [hm]
    refine ⟨?_, List.mem_erase_of_ne hq, id, id⟩
    show (socks ++ [r]).count q = socks.count q
    rw [List.count_append, List.count_eq_zero_of_not_mem (mt List.mem_singleton.mp hq)]
    rfl
  · rintro (hfalse | hnew)
    · exact hfalse.elim
    · exact h.collected (.inr ⟨r, hnew⟩)

theorem acceptedAll (hn : 1 ≤ worldSize) {socks : List ℕ} (hm : s.master = .accepting socks)
    (hmore : ¬ socks.length < worldSize - 1) :
    Inv worldSize info
      { s with master := .receiving [] socks (masterTable worldSize (info 0)) } := by
  have hnodup := h.nodup_workerSocks
  have hin : ∀ q ∈ socks, IsWorker worldSize q := by
    intro q hq
    refine h.isWorker_of_opened (h.opened_of_mem ?_).1
    rw [hm]
    exact hq
  rw [hm] at hnodup
  refine h.setPc ⟨filled_master hn info, perm_workers hnodup hin hmore⟩ (by rw [hm]; rfl)
    MasterPc.noConfusion (fun q => by rw [hm]; rfl) ?_ ?_ False.elim
  · intro q _
    rw [hm]
    trivial
  · intro q _
    rw [hm]
    trivial

theorem recvNodeInfo (hinfo : Sendable worldSize info) {received rest : List ℕ}
    {allNodes : List NodeInfo} {buffer up : List UInt8} {node : NodeInfo}
    (hm : s.master = .receiving received (r :: rest) allNodes)
    (hrecv : recvAll (s.worker r).up = some (buffer, up))
    (hnode : Bootstrap.recvNodeInfo (some buffer) = .ok (some node)) :
    Inv worldSize info
      ({ s with master := .receiving (received ++ [r]) rest (store allNodes node) }.setWorker r
        { s.worker r with up := up }) := by
  have hok := h.master
  rw [hm] at hok
  obtain ⟨hfilled, hperm⟩ := hok
  obtain ⟨hr, hnot, hnext⟩ := next_worker hperm
  have hw := h.worker r
  obtain ⟨heq, rfl, rfl⟩ := eq_frame_of_recvAll (length_frame_lt hinfo hr.2) hw.prefix_up hrecv
  rw [recvNodeInfo_encode (hinfo.ip r hr.2)] at hnode
  cases hnode
  have hcount : ∀ q, (received ++ [r] ++ rest).count q = (received ++ r :: rest).count q := by
    intro q
    rw [List.append_assoc]
    rfl
  rw [hm] at hw
  refine h.goOn _ s.pending ?_ le_rfl
    ⟨hfilled.store hr.2 (hinfo.rank r hr.2), hnext⟩ (by rw [hm]; rfl) MasterPc.noConfusion
    h.pending h.pending_opened ?_ ?_
  · exact { hw with
      workerSock := by
        show _ = _ + (received ++ [r] ++ rest).count r
        rw [hcount]
        exact hw.workerSock
      prefix_up := List.nil_prefix
      up_nil := fun _ => rfl
      up_frame := fun hu => absurd (List.mem_append_right _ (List.mem_singleton_self r)) hu
      down_nil := fun _ => hw.down_nil trivial }
  · intro q hq
    rw [hm]
    refine ⟨hcount q, Iff.rfl, ?_, id⟩
    exact fun hu hmem => hu (List.mem_append_left _ hmem)
  · rintro (hfalse | hnew)
    · exact hfalse.elim
    · exact h.collected (.inr ⟨r, hnew⟩)

theorem receivedAll {received : List ℕ} {allNodes : List NodeInfo}
    (hm : s.master = .receiving received [] allNodes) :
    Inv worldSize info { s with master := .broadcasting [] received allNodes } := by
  have hok := h.master
  rw [hm] at hok
  obtain ⟨hfilled, hperm⟩ := hok
  have hmem : ∀ q, IsWorker worldSize q → q ∈ s.master.workerSocks := by
    intro q hq
    rw [hm]
    exact hperm.mem_iff.mpr (mem_workers.mpr hq)
  rw [List.append_nil] at hperm
  refine h.setPc ⟨hfilled.eq_table hperm, hperm⟩ (by rw [hm]; rfl) MasterPc.noConfusion
    (fun q => ?_) (fun q hfalse => hfalse.elim) (fun q _ => by rw [hm]; trivial)
    fun _ q hq => (h.opened_of_mem (hmem q hq)).1
  rw [hm]
  show ([] ++ received).count q = (received ++ []).count q
  rw [List.nil_append, List.append_nil]

/-- The master writes the table or a part of it to a worker, and goes on to `pc`. -/
theorem write {sent rest : List ℕ} {allNodes : List NodeInfo} {part : List UInt8} {pc : MasterPc}
    (hm : s.master = .broadcasting sent (r :: rest) allNodes)
    (hpart : part <+: sendAll (encodeAllNodes allNodes)) (hpc : pc.Ok worldSize info)
    (hfds : pc.listenFds = 1) (hsocks : pc.workerSocks = sent ++ r :: rest)
    (hunread : ∀ q, ¬ pc.Unread q)
    (huntold : ∀ q, pc.Untold q → q ∉ sent ∧ q ≠ r) :
    Inv worldSize info
      ({ s with master := pc }.setWorker r
        { s.worker r with down := (s.worker r).down ++ part }) := by
  have hok := h.master
  rw [hm] at hok
  obtain ⟨rfl, hperm⟩ := hok
  have hnodup : (sent ++ r :: rest).Nodup := hperm.nodup_iff.mpr List.nodup_range'
  have hsent : r ∉ sent := fun hmem => List.disjoint_of_nodup_append hnodup hmem
    List.mem_cons_self
  have hcollected : s.Collected := .inl (by rw [hm]; trivial)
  have hw := h.worker r
  rw [hm] at hw
  refine h.goOn _ s.pending ?_ le_rfl hpc (by rw [hm, hfds]; rfl) ?_ h.pending
    h.pending_opened ?_ fun _ => h.collected hcollected
  · exact { hw with
      workerSock := by
        rw [hsocks]
        exact hw.workerSock
      up_frame := fun hu => absurd hu (hunread r)
      prefix_down := by
        show (s.worker r).down ++ part <+: _
        rw [hw.down_nil hsent, List.nil_append]
        exact hpart
      down_nil := fun hu => absurd rfl (huntold r hu).2 }
  · rintro rfl
    cases hfds
  · intro q _
    rw [hm, hsocks]
    exact ⟨rfl, Iff.rfl, fun hu => absurd hu (hunread q), fun hu => (huntold q hu).1⟩

theorem broadcast {sent rest : List ℕ} {allNodes : List NodeInfo}
    (hm : s.master = .broadcasting sent (r :: rest) allNodes) :
    Inv worldSize info
      ({ s with master := .broadcasting (sent ++ [r]) rest allNodes }.setWorker r
        { s.worker r with down := (s.worker r).down ++ sendAll (encodeAllNodes allNodes) }) := by
  have hok := h.master
  rw [hm] at hok
  obtain ⟨htable, hperm⟩ := hok
  refine h.write hm (List.prefix_refl _) ⟨htable, (next_worker hperm).2.2⟩ rfl ?_
    (fun q => id) ?_
  · show sent ++ [r] ++ rest = _
    rw [List.append_assoc]
    rfl
  · intro q hq
    exact ⟨fun hmem => hq (List.mem_append_left _ hmem),
      fun heq => hq (List.mem_append_right _ (List.mem_singleton.mpr heq))⟩

/-- The master gives up, or is done, with connections open. -/
theorem toClosing {socks : List ℕ} {result : Option (List NodeInfo)}
    (hsocks : s.master.workerSocks = socks) (hfds : s.master.listenFds = 1)
    (hresult : ∀ nodes, result = some nodes →
      nodes = table worldSize info ∧ s.master.Collected) :
    Inv worldSize info { s with master := .closing socks result } := by
  refine h.setPc ?_ hfds.symm MasterPc.noConfusion (fun q => by rw [hsocks]; rfl)
    (fun q hfalse => hfalse.elim) (fun q hfalse => hfalse.elim) ?_
  · cases result with
    | none => trivial
    | some nodes => exact (hresult nodes rfl).1
  · cases result with
    | none => exact False.elim
    | some nodes => exact fun _ => h.collected (.inl (hresult nodes rfl).2)

theorem closeWorkerSock {socks : List ℕ} {result : Option (List NodeInfo)}
    (hm : s.master = .closing (r :: socks) result) :
    Inv worldSize info
      ({ s with master := .closing socks result }.setWorker r
        { s.worker r with workerSock := (s.worker r).workerSock.close }) := by
  have hok := h.master
  have hw := h.worker r
  have hsock := hw.workerSock
  have hcollected : (MasterPc.closing socks result).Collected → s.Collected := by
    intro hc
    refine .inl ?_
    rw [hm]
    cases result with
    | none => exact hc
    | some nodes => trivial
  rw [hm] at hok hw hsock
  refine h.goOn _ s.pending ?_ le_rfl ?_ (by rw [hm]; rfl) MasterPc.noConfusion
    h.pending h.pending_opened ?_ ?_
  · exact { hw with
      workerSock := by
        show (s.worker r).workerSock.opened = (s.worker r).workerSock.closed + 1 + socks.count r
        rw [show (MasterPc.closing (r :: socks) result).workerSocks = r :: socks from rfl,
          List.count_cons_self] at hsock
        omega
      up_frame := hw.up_frame
      down_nil := hw.down_nil }
  · cases result with
    | none => trivial
    | some nodes => exact hok
  · intro q hq
    rw [hm]
    exact ⟨(List.count_cons_of_ne hq.symm).symm, Iff.rfl, id, id⟩
  · rintro (hc | hnew)
    · exact h.collected (hcollected hc)
    · exact h.collected (.inr ⟨r, hnew⟩)

theorem closeListenFd {result : Option (List NodeInfo)} (hm : s.master = .closing [] result) :
    Inv worldSize info
      { s with master := .returned result, listenFd := s.listenFd.close, listening := false } := by
  have hok := h.master
  have hfd := h.listenFd
  rw [hm] at hok hfd
  refine h.setMaster ?_ hfd h.listenFd_le id MasterPc.noConfusion Bool.noConfusion ?_
    (fun q hfalse => hfalse.elim) (fun q hfalse => hfalse.elim) ?_
  · cases result with
    | none => trivial
    | some nodes => exact hok
  · intro q
    rw [hm]
    rfl
  · intro hc
    refine h.collected (.inl ?_)
    rw [hm]
    cases result with
    | none => exact hc
    | some nodes => trivial

theorem failMaster {pc : MasterPc} (hm : s.master.afterFailure worldSize = some pc) :
    Inv worldSize info { s with master := pc } := by
  cases hmaster : s.master with
  | start =>
      rw [hmaster] at hm
      cases hm
      have hfd := h.listenFd
      rw [hmaster] at hfd
      exact h.setMaster trivial hfd h.listenFd_le id MasterPc.noConfusion h.listening
        (fun q => by rw [hmaster]; rfl) (fun q hfalse => hfalse.elim)
        (fun q hfalse => hfalse.elim) False.elim
  | binding =>
      rw [hmaster] at hm
      cases hm
      exact h.toClosing (by rw [hmaster]; rfl) (by rw [hmaster]; rfl)
        fun _ hnodes => by cases hnodes
  | accepting socks =>
      rw [hmaster, MasterPc.afterFailure] at hm
      split at hm
      · cases hm
        exact h.toClosing (by rw [hmaster]; rfl) (by rw [hmaster]; rfl)
          fun _ hnodes => by cases hnodes
      · cases hm
  | receiving received rest allNodes =>
      rw [hmaster] at hm
      cases rest with
      | nil => cases hm
      | cons q rest =>
          cases hm
          exact h.toClosing (by rw [hmaster]; rfl) (by rw [hmaster]; rfl)
            fun _ hnodes => by cases hnodes
  | broadcasting | closing | returned | fault =>
      rw [hmaster] at hm
      cases hm

/-- The process of the master dies. -/
theorem dieMaster :
    Inv worldSize info { s with
      master := .returned none
      listenFd := s.listenFd.reap s.master.listenFds
      listening := false
      worker := fun r => { s.worker r with
        workerSock := (s.worker r).workerSock.reap (s.master.workerSocks.count r) } } where
  master := trivial
  listenFd := h.listenFd
  listenFd_le := h.listenFd_le
  listenFd_start hpc := MasterPc.noConfusion hpc
  listening hlisten := Bool.noConfusion hlisten
  pending := h.pending
  pending_opened := h.pending_opened
  worker q :=
    { h.worker q with
      workerSock := (h.worker q).workerSock
      up_frame := fun hfalse => hfalse.elim
      down_nil := fun hfalse => hfalse.elim }
  collected hc := h.collected (hc.elim False.elim .inr)

/-! The steps of a worker. -/

theorem createSocket (hr : IsWorker worldSize r) (hpc : (s.worker r).pc = .start) :
    Inv worldSize info (s.setWorker r
      { s.worker r with pc := .connecting 0, sockfd := (s.worker r).sockfd.acquire }) := by
  have hw := h.worker r
  have hzero := hw.sockfd_start hpc
  have hsock := hw.sockfd
  rw [hpc] at hsock
  refine h.setWorker ?_ rfl ?_
  · exact { hw with
      isWorker := fun _ => hr
      noFault := WorkerPc.noConfusion
      sockfd := congrArg (· + 1) hsock
      sockfd_le := by
        show _ + 1 ≤ 1
        omega
      sockfd_start := fun hfalse => WorkerPc.noConfusion hfalse
      sockfd_opened := fun _ => congrArg (· + 1) hzero
      unmet := fun _ => hw.unmet (.inl hpc)
      met := by rintro (hfalse | hfalse) <;> cases hfalse
      up_nil := fun _ => hw.up_nil (.inl hpc)
      up_frame := fun _ hfalse => WorkerPc.noConfusion hfalse
      result := fun _ hfalse => by cases hfalse }
  · rintro (hdown | ⟨nodes, hfalse⟩)
    · exact .inr ⟨r, .inl hdown⟩
    · cases hfalse

theorem connect (hr : IsWorker worldSize r) {attempt : Fin 30}
    (hpc : (s.worker r).pc = .connecting attempt) (hlisten : s.listening = true) :
    Inv worldSize info
      ({ s with pending := s.pending ++ [r] }.setWorker r
        { s.worker r with pc := .connected }) := by
  have hw := h.worker r
  obtain ⟨hnot, hzero⟩ := hw.unmet (.inr ⟨attempt, hpc⟩)
  have hsock : (s.worker r).sockfd.opened = (s.worker r).sockfd.closed + 1 := by
    rw [hw.sockfd, hpc]
    rfl
  have hnodup : (s.pending ++ [r]).Nodup := by
    refine h.pending.append (List.nodup_singleton r) fun q hq hqr => hnot ?_
    rwa [← List.mem_singleton.mp hqr]
  refine h.goOn s.master _ ?_ le_rfl h.master rfl id hnodup
    (fun _ => h.listening hlisten) ?_ ?_
  · exact { hw with
      isWorker := fun _ => hr
      noFault := WorkerPc.noConfusion
      sockfd := hsock
      sockfd_start := fun hfalse => WorkerPc.noConfusion hfalse
      sockfd_opened := fun _ => le_antisymm hw.sockfd_le (hsock ▸ Nat.le_add_left 1 _)
      pending_iff := fun _ => hzero
      unmet := by rintro (hfalse | ⟨_, hfalse⟩) <;> cases hfalse
      met := fun _ => .inl (List.mem_append_right _ (List.mem_singleton_self r))
      up_nil := fun _ => hw.up_nil (.inr (.inl ⟨attempt, hpc⟩))
      up_frame := fun _ hfalse => WorkerPc.noConfusion hfalse
      result := fun _ hfalse => by cases hfalse }
  · intro q hq
    refine ⟨rfl, ?_, id, id⟩
    rw [List.mem_append, List.mem_singleton, or_iff_left hq]
  · rintro (hc | hdown | ⟨nodes, hfalse⟩)
    · exact h.collected (.inl hc)
    · exact h.collected (.inr ⟨r, .inl hdown⟩)
    · cases hfalse

/-- A worker that has its socket open and no table goes on, or gives up, without one. -/
theorem goTo (hr : IsWorker worldSize r) {pc : WorkerPc} (hnot : pc ≠ .start)
    (hsockfds : pc.sockfds = (s.worker r).pc.sockfds) (hfault : pc ≠ .fault)
    (hresult : pc.result = none)
    (hconnecting : (∃ attempt, pc = .connecting attempt) →
      ∃ attempt, (s.worker r).pc = .connecting attempt)
    (hconnected : pc ≠ .connected) (hwaiting : pc ≠ .waiting) :
    Inv worldSize info (s.setWorker r { s.worker r with pc := pc }) := by
  have hw := h.worker r
  refine h.setWorker ?_ rfl ?_
  · exact { hw with
      isWorker := fun _ => hr
      noFault := hfault
      sockfd := by
        show _ = _ + pc.sockfds
        rw [hsockfds]
        exact hw.sockfd
      sockfd_start := fun hpc => absurd hpc hnot
      unmet := fun hpc => hw.unmet (.inr (hconnecting (hpc.resolve_left hnot)))
      met := fun hpc => absurd hpc (not_or.mpr ⟨hconnected, hwaiting⟩)
      up_nil := fun hpc => hw.up_nil (.inr (.inl
        (hconnecting ((hpc.resolve_left hnot).resolve_right hconnected))))
      up_frame := fun _ hpc => absurd hpc hwaiting
      result := fun nodes hnodes => by
        rw [show pc.result = none from hresult] at hnodes
        cases hnodes }
  · rintro (hdown | ⟨nodes, hnodes⟩)
    · exact .inr ⟨r, .inl hdown⟩
    · rw [show pc.result = none from hresult] at hnodes
      cases hnodes

theorem afterAttempt (hr : IsWorker worldSize r) {attempt : Fin 30}
    (hpc : (s.worker r).pc = .connecting attempt) :
    Inv worldSize info (s.setWorker r { s.worker r with pc := .afterAttempt attempt }) := by
  rw [WorkerPc.afterAttempt]
  split
  · refine h.goTo hr ?_ ?_ ?_ rfl (fun _ => ⟨attempt, hpc⟩) ?_ ?_
    case refine_2 =>
      rw [hpc]
      rfl
    all_goals exact WorkerPc.noConfusion
  · refine h.goTo hr ?_ ?_ ?_ rfl ?_ ?_ ?_
    case refine_2 =>
      rw [hpc]
      rfl
    case refine_4 =>
      rintro ⟨_, hfalse⟩
      cases hfalse
    all_goals exact WorkerPc.noConfusion

theorem sendNodeInfo (hr : IsWorker worldSize r) (hpc : (s.worker r).pc = .connected) :
    Inv worldSize info (s.setWorker r
      { s.worker r with
        pc := .waiting
        up := (s.worker r).up ++ sendAll (encodeNodeInfo [] (info r)) }) := by
  have hw := h.worker r
  have hnil : (s.worker r).up = [] := hw.up_nil (.inr (.inr hpc))
  have hsock := hw.sockfd
  rw [hpc] at hsock
  refine h.setWorker ?_ rfl ?_
  · exact { hw with
      isWorker := fun _ => hr
      noFault := WorkerPc.noConfusion
      sockfd := hsock
      sockfd_start := fun hfalse => WorkerPc.noConfusion hfalse
      unmet := by rintro (hfalse | ⟨_, hfalse⟩) <;> cases hfalse
      met := fun _ => hw.met (.inl hpc)
      prefix_up := by
        show (s.worker r).up ++ _ <+: _
        rw [hnil, List.nil_append]
      up_nil := by rintro (hfalse | ⟨_, hfalse⟩ | hfalse) <;> cases hfalse
      up_frame := fun _ _ => by
        show (s.worker r).up ++ _ = _
        rw [hnil, List.nil_append]
      result := fun _ hfalse => by cases hfalse }
  · rintro (hdown | ⟨nodes, hfalse⟩)
    · exact .inr ⟨r, .inl hdown⟩
    · cases hfalse

theorem failSend (hr : IsWorker worldSize r) (hpc : (s.worker r).pc = .connected)
    {part : List UInt8} (hpart : part <+: sendAll (encodeNodeInfo [] (info r))) :
    Inv worldSize info (s.setWorker r
      { s.worker r with pc := .closing none, up := (s.worker r).up ++ part }) := by
  have hw := h.worker r
  have hsock := hw.sockfd
  rw [hpc] at hsock
  refine h.setWorker ?_ rfl ?_
  · exact { hw with
      isWorker := fun _ => hr
      noFault := WorkerPc.noConfusion
      sockfd := hsock
      sockfd_start := fun hfalse => WorkerPc.noConfusion hfalse
      unmet := by rintro (hfalse | ⟨_, hfalse⟩) <;> cases hfalse
      met := by rintro (hfalse | hfalse) <;> cases hfalse
      prefix_up := by
        show (s.worker r).up ++ part <+: _
        rw [hw.up_nil (.inr (.inr hpc)), List.nil_append]
        exact hpart
      up_nil := by rintro (hfalse | ⟨_, hfalse⟩ | hfalse) <;> cases hfalse
      up_frame := fun _ hfalse => WorkerPc.noConfusion hfalse
      result := fun _ hfalse => by cases hfalse }
  · rintro (hdown | ⟨nodes, hfalse⟩)
    · exact .inr ⟨r, .inl hdown⟩
    · cases hfalse

/-- What a worker reads is the table. -/
theorem frame_down (hinfo : Sendable worldSize info) {buffer down : List UInt8}
    (hrecv : recvAll (s.worker r).down = some (buffer, down)) :
    (s.worker r).down ≠ [] ∧ down = [] ∧
      (decodeAllNodes buffer).run 0
        = .ok (table worldSize info, (encodeAllNodes (table worldSize info)).length) := by
  obtain ⟨-, rfl, rfl⟩ := eq_frame_of_recvAll hinfo.frame (h.worker r).prefix_down hrecv
  refine ⟨fun hnil => ?_, rfl, hinfo.decode⟩
  rw [hnil, recvAll_nil] at hrecv
  cases hrecv

theorem recvAllNodes (hinfo : Sendable worldSize info) (hr : IsWorker worldSize r)
    (hpc : (s.worker r).pc = .waiting) {buffer down : List UInt8} {allNodes : List NodeInfo}
    {offset : ℕ} (hrecv : recvAll (s.worker r).down = some (buffer, down))
    (hnodes : (decodeAllNodes buffer).run 0 = .ok (allNodes, offset)) :
    Inv worldSize info (s.setWorker r
      { s.worker r with pc := .closing (some allNodes), down := down }) := by
  obtain ⟨hdown, rfl, hdecode⟩ := h.frame_down hinfo hrecv
  rw [hdecode] at hnodes
  cases hnodes
  have hw := h.worker r
  have hsock := hw.sockfd
  rw [hpc] at hsock
  refine h.setWorker ?_ rfl fun _ => .inr ⟨r, .inl hdown⟩
  exact { hw with
    isWorker := fun _ => hr
    noFault := WorkerPc.noConfusion
    sockfd := hsock
    sockfd_start := fun hfalse => WorkerPc.noConfusion hfalse
    unmet := by rintro (hfalse | ⟨_, hfalse⟩) <;> cases hfalse
    met := by rintro (hfalse | hfalse) <;> cases hfalse
    up_nil := by rintro (hfalse | ⟨_, hfalse⟩ | hfalse) <;> cases hfalse
    up_frame := fun _ hfalse => WorkerPc.noConfusion hfalse
    prefix_down := List.nil_prefix
    down_nil := fun _ => rfl
    result := fun nodes hnodes => (Option.some.inj hnodes).symm }

/-- A worker returns what it has, or false, and its descriptor is closed. -/
theorem toReturned (hr : IsWorker worldSize r) {result : Option (List NodeInfo)} {fd : Fd}
    (hfd : fd.opened = (s.worker r).sockfd.opened) (hclosed : fd.opened = fd.closed)
    (hresult : ∀ nodes, result = some nodes → (s.worker r).pc.result = some nodes) :
    Inv worldSize info (s.setWorker r
      { s.worker r with pc := .returned result, sockfd := fd }) := by
  have hw := h.worker r
  refine h.setWorker ?_ rfl ?_
  · exact { hw with
      isWorker := fun _ => hr
      noFault := WorkerPc.noConfusion
      sockfd := hclosed
      sockfd_le := by
        show fd.opened ≤ 1
        rw [hfd]
        exact hw.sockfd_le
      sockfd_start := fun hfalse => WorkerPc.noConfusion hfalse
      sockfd_opened := fun hmet => hfd.trans (hw.sockfd_opened hmet)
      unmet := by rintro (hfalse | ⟨_, hfalse⟩) <;> cases hfalse
      met := by rintro (hfalse | hfalse) <;> cases hfalse
      up_nil := by rintro (hfalse | ⟨_, hfalse⟩ | hfalse) <;> cases hfalse
      up_frame := fun _ hfalse => WorkerPc.noConfusion hfalse
      result := fun nodes hnodes => hw.result nodes (hresult nodes hnodes) }
  · rintro (hdown | ⟨nodes, hnodes⟩)
    · exact .inr ⟨r, .inl hdown⟩
    · exact .inr ⟨r, .inr ⟨nodes, hresult nodes hnodes⟩⟩

theorem failWorker (hr : IsWorker worldSize r) {pc : WorkerPc}
    (hpc : (s.worker r).pc.afterFailure = some pc) :
    Inv worldSize info (s.setWorker r { s.worker r with pc := pc }) := by
  cases hworker : (s.worker r).pc with
  | start =>
      rw [hworker] at hpc
      cases hpc
      have hsock := (h.worker r).sockfd
      rw [hworker] at hsock
      exact h.toReturned hr rfl hsock fun _ hfalse => by cases hfalse
  | connecting attempt =>
      rw [hworker, WorkerPc.afterFailure] at hpc
      split at hpc
      · cases hpc
        refine h.goTo hr ?_ ?_ ?_ rfl ?_ ?_ ?_
        case refine_2 =>
          rw [hworker]
          rfl
        case refine_4 =>
          rintro ⟨_, hfalse⟩
          cases hfalse
        all_goals exact WorkerPc.noConfusion
      · cases hpc
  | waiting =>
      rw [hworker] at hpc
      cases hpc
      refine h.goTo hr ?_ ?_ ?_ rfl ?_ ?_ ?_
      case refine_2 =>
        rw [hworker]
        rfl
      case refine_4 =>
        rintro ⟨_, hfalse⟩
        cases hfalse
      all_goals exact WorkerPc.noConfusion
  | connected | closing | returned | fault =>
      rw [hworker] at hpc
      cases hpc

/-- **One step keeps the invariant.** -/
theorem step (hn : 1 ≤ worldSize) (hinfo : Sendable worldSize info)
    (hstep : Step worldSize info s a t) : Inv worldSize info t := by
  cases hstep with
  | createListenSocket hm =>
      have hzero := h.listenFd_start hm
      have hfd := h.listenFd
      rw [hm] at hfd
      refine h.setMaster trivial (congrArg (· + 1) hfd) ?_ ?_ MasterPc.noConfusion ?_
        (fun q => by rw [hm]; rfl) (fun q _ => by rw [hm]; trivial)
        (fun q _ => by rw [hm]; trivial) False.elim
      · show _ + 1 ≤ 1
        omega
      · intro hone
        omega
      · intro hlisten
        have hone := h.listening hlisten
        omega
  | listen hm =>
      have hfd := h.listenFd
      have hle := h.listenFd_le
      rw [hm] at hfd
      have hone : s.listenFd.closed + 1 = s.listenFd.opened := hfd.symm
      exact h.setMaster trivial hfd hle id MasterPc.noConfusion (fun _ => by omega)
        (fun q => by rw [hm]; rfl) (fun q _ => by rw [hm]; trivial)
        (fun q _ => by rw [hm]; trivial) False.elim
  | accept hm hmore hr => exact h.accept hm hr
  | acceptedAll hm hmore => exact h.acceptedAll hn hm hmore
  | recvNodeInfo hm hrecv hnode hin => exact h.recvNodeInfo hinfo hm hrecv hnode
  | @recvNodeInfoFault _ r received rest allNodes buffer up hm hrecv hnode =>
      have hok := h.master
      rw [hm] at hok
      obtain ⟨hfilled, hperm⟩ := hok
      obtain ⟨hr, -, -⟩ := next_worker hperm
      obtain ⟨-, rfl, -⟩ :=
        eq_frame_of_recvAll (length_frame_lt hinfo hr.2) (h.worker r).prefix_up hrecv
      exact absurd (hfilled.inTable hinfo hr.2)
        (hnode (info r) (recvNodeInfo_encode (hinfo.ip r hr.2)))
  | endOfNodeInfo hm hrecv hend =>
      exact h.toClosing (by rw [hm]; rfl) (by rw [hm]; rfl) fun _ hnodes => by cases hnodes
  | receivedAll hm => exact h.receivedAll hm
  | broadcast hm => exact h.broadcast hm
  | @broadcastAll _ sent allNodes hm =>
      have hok := h.master
      rw [hm] at hok
      refine h.toClosing ?_ (by rw [hm]; rfl) fun nodes hnodes => ?_
      · rw [hm]
        exact List.append_nil sent
      · rw [hm]
        exact ⟨(Option.some.inj hnodes).symm.trans hok.1, trivial⟩
  | closeWorkerSock hm => exact h.closeWorkerSock hm
  | closeListenFd hm => exact h.closeListenFd hm
  | createSocket hr hpc => exact h.createSocket hr hpc
  | connect hr hpc hlisten => exact h.connect hr hpc hlisten
  | refused hr hpc hlisten => exact h.afterAttempt hr hpc
  | sendNodeInfo hr hpc => exact h.sendNodeInfo hr hpc
  | recvAllNodes hr hpc hrecv hnodes => exact h.recvAllNodes hinfo hr hpc hrecv hnodes
  | recvAllNodesFault hr hpc hrecv hnodes =>
      obtain ⟨-, -, hdecode⟩ := h.frame_down hinfo hrecv
      rw [hdecode] at hnodes
      cases hnodes
  | endOfAllNodes hr hpc hrecv hend => exact h.failWorker hr (by rw [hpc]; rfl)
  | @closeSockfd _ r result hr hpc =>
      have hsock := (h.worker r).sockfd
      rw [hpc] at hsock
      refine h.toReturned hr rfl hsock fun nodes hnodes => ?_
      rw [hpc]
      exact hnodes
  | failMaster hm => exact h.failMaster hm
  | failBroadcast hm hpart hlt =>
      exact h.write hm hpart trivial rfl rfl (fun q => id) fun q hfalse => hfalse.elim
  | failWorker hr hpc => exact h.failWorker hr hpc
  | failConnect hr hpc => exact h.afterAttempt hr hpc
  | failSend hr hpc hpart hlt => exact h.failSend hr hpc hpart
  | dieMaster hm => exact h.dieMaster
  | @dieWorker _ r hr hpc =>
      exact h.toReturned hr rfl (h.worker r).sockfd fun _ hfalse => by cases hfalse

end Inv

theorem inv_of_reaches (hn : 1 ≤ worldSize) (hinfo : Sendable worldSize info)
    (h : (Step worldSize info).Reaches State.init s) : Inv worldSize info s := by
  induction h with
  | refl => exact inv_init
  | tail _ hstep ih =>
      obtain ⟨a, hstep⟩ := hstep
      exact ih.step hn hinfo hstep

end Step

/-! ### What a rank returns, and what it leaves open -/

/-- The descriptor has been opened at most once, and not closed more often. -/
def Fd.Proper (fd : Fd) : Prop := fd.closed ≤ fd.opened ∧ fd.opened ≤ 1

section Results

variable {worldSize : ℕ} (hn : 1 ≤ worldSize) {ip : ℕ → List UInt8} {dataPort : ℕ → BitVec 16}
  (hip : ∀ r < worldSize, (ip r).length < 2 ^ 31)
  (hframe : (encodeAllNodes (table worldSize (nodeInfo ip dataPort))).length < 2 ^ 32)
  {s : State} (h : (Step worldSize (nodeInfo ip dataPort)).Reaches State.init s)
include hn hip hframe h

/-- **A table that is returned is complete, whatever fails anywhere**: it is the one that
all others would return, the master has accepted a connection from every worker, and no
rank has read or written outside of a buffer. -/
theorem failures_agree :
    (∀ r < worldSize, ∀ allNodes, s.returned r = some (some allNodes) →
      allNodes = table worldSize (nodeInfo ip dataPort) ∧
        ∀ q, IsWorker worldSize q → (s.worker q).workerSock.opened = 1) ∧
      s.master ≠ .fault ∧ ∀ q, (s.worker q).pc ≠ .fault := by
  have hinv := inv_of_reaches hn (sendable_nodeInfo hip hframe) h
  refine ⟨fun r hr allNodes hreturned => ?_, fun hfault => ?_, fun q => (hinv.worker q).noFault⟩
  · unfold State.returned at hreturned
    split at hreturned
    · -- the master
      split at hreturned
      · next result hm =>
          cases hreturned
          have hok := hinv.master
          rw [hm] at hok
          refine ⟨hok, hinv.collected (.inl ?_)⟩
          rw [hm]
          trivial
      · cases hreturned
    · split at hreturned
      · next result hpc =>
          cases hreturned
          have hresult : (s.worker r).pc.result = some allNodes := by
            rw [hpc]
            rfl
          exact ⟨(hinv.worker r).result allNodes hresult,
            hinv.collected (.inr ⟨r, .inr ⟨allNodes, hresult⟩⟩)⟩
      · cases hreturned
  · have hok := hinv.master
    rw [hfault] at hok
    exact hok

/-- **Every descriptor is closed once**: none is closed that is not open, and a rank that
has returned has none open, on whichever way it has come to return. -/
theorem descriptors_closed :
    s.listenFd.Proper ∧
      (∀ q, (s.worker q).workerSock.Proper ∧ (s.worker q).sockfd.Proper) ∧
      (∀ result, s.master = .returned result → s.listenFd.closed = s.listenFd.opened ∧
        ∀ q, (s.worker q).workerSock.closed = (s.worker q).workerSock.opened) ∧
      ∀ q result, (s.worker q).pc = .returned result →
        (s.worker q).sockfd.closed = (s.worker q).sockfd.opened := by
  have hinv := inv_of_reaches hn (sendable_nodeInfo hip hframe) h
  refine ⟨⟨?_, hinv.listenFd_le⟩, fun q => ⟨⟨?_, (hinv.worker q).workerSock_le⟩,
    ⟨?_, (hinv.worker q).sockfd_le⟩⟩, fun result hm => ⟨?_, fun q => ?_⟩, fun q result hpc => ?_⟩
  · exact Nat.le.intro hinv.listenFd.symm
  · exact Nat.le.intro (hinv.worker q).workerSock.symm
  · exact Nat.le.intro (hinv.worker q).sockfd.symm
  · have hfd := hinv.listenFd
    rw [hm] at hfd
    exact hfd.symm
  · have hsock := (hinv.worker q).workerSock
    rw [hm] at hsock
    exact hsock.symm
  · have hsock := (hinv.worker q).sockfd
    rw [hpc] at hsock
    exact hsock.symm

end Results

section Two

/-- Two ranks with the address `::1`. -/
def twoRanks : ℕ → NodeInfo := nodeInfo (fun _ => [58, 58, 49]) fun _ => 80

theorem length_ip_two : ∀ r < 2, ((fun _ => [58, 58, 49] : ℕ → List UInt8) r).length < 2 ^ 31 := by
  intro r _
  show 3 < 2 ^ 31
  decide

theorem length_frame_two : (encodeAllNodes (table 2 twoRanks)).length < 2 ^ 32 := by decide

/-- The master dies after it has sent the table, and the worker returns the table. -/
theorem failures_agree_two : ∃ s : State, (Step 2 twoRanks).Reaches State.init s ∧
    s.returned 0 = some none ∧
    s.returned 1 = some (some [⟨0, [58, 58, 49], 80⟩, ⟨1, [58, 58, 49], 80⟩]) ∧
    (s.worker 1).workerSock.opened = 1 := by
  have hinfo : Sendable 2 twoRanks := sendable_nodeInfo length_ip_two length_frame_two
  have hr : IsWorker 2 1 := ⟨by decide, by decide⟩
  have hrun : ∃ s : State, (Step 2 twoRanks).Reaches State.init s ∧ s.returned 0 = some none ∧
      s.returned 1 = some (some (table 2 twoRanks)) := by
    refine ⟨_, .head ⟨_, .createListenSocket rfl⟩ <| .head ⟨_, .listen rfl⟩ <|
      .head ⟨_, .createSocket hr rfl⟩ <| .head ⟨_, .connect hr rfl rfl⟩ <|
      .head ⟨_, .accept rfl (by decide) List.mem_cons_self⟩ <|
      .head ⟨_, .acceptedAll rfl (by decide)⟩ <| .head ⟨_, .sendNodeInfo hr rfl⟩ <|
      .head ⟨_, .recvNodeInfo rfl (hinfo.recvAll_up hr.2)
        (recvNodeInfo_encode (hinfo.ip 1 hr.2)) (by decide)⟩ <| .head ⟨_, .receivedAll rfl⟩ <|
      .head ⟨_, .broadcast rfl⟩ <| .head ⟨_, .dieMaster fun _ => MasterPc.noConfusion⟩ <|
      .head ⟨_, .recvAllNodes hr rfl hinfo.recvAll_down hinfo.decode⟩ <|
      .single ⟨_, .closeSockfd hr rfl⟩, rfl, rfl⟩
  obtain ⟨s, hs, hmaster, hworker⟩ := hrun
  obtain ⟨hall, -⟩ := failures_agree (by decide) length_ip_two length_frame_two hs
  exact ⟨s, hs, hmaster, hworker, (hall 1 (by decide) _ hworker).2 1 hr⟩

/-- The worker gives up before the master listens, and the master fails to. -/
theorem descriptors_closed_two : ∃ s : State, (Step 2 twoRanks).Reaches State.init s ∧
    s.listenFd = ⟨1, 1⟩ ∧ (s.worker 1).sockfd = ⟨1, 1⟩ := by
  have hr : IsWorker 2 1 := ⟨by decide, by decide⟩
  have hrun : ∃ s : State, (Step 2 twoRanks).Reaches State.init s ∧
      s.master = .returned none ∧ (s.worker 1).pc = .returned none ∧
      s.listenFd.opened = 1 ∧ (s.worker 1).sockfd.opened = 1 := by
    refine ⟨_, .head ⟨_, .createSocket hr rfl⟩ <| .head ⟨_, .failWorker hr rfl⟩ <|
      .head ⟨_, .closeSockfd hr rfl⟩ <| .head ⟨_, .createListenSocket rfl⟩ <|
      .head ⟨_, .failMaster rfl⟩ <| .single ⟨_, .closeListenFd rfl⟩, rfl, rfl, rfl, rfl⟩
  obtain ⟨s, hs, hmaster, hworker, hlisten, hsock⟩ := hrun
  obtain ⟨-, -, hreturned, hclosed⟩ :=
    descriptors_closed (by decide) length_ip_two length_frame_two hs
  refine ⟨s, hs, ?_, ?_⟩
  · have hfd := (hreturned none hmaster).1
    rw [hlisten] at hfd
    exact congrArg₂ Fd.mk hlisten hfd
  · have hfd := hclosed 1 none hworker
    rw [hsock] at hfd
    exact congrArg₂ Fd.mk hsock hfd

end Two

end MiniCcl.Bootstrap.Failing
