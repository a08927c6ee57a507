/-
MiniCcl/BootstrapRun.lean

`Bootstrap::Run` on all ranks at once.

The workers connect, are accepted, send their `NodeInfo` and receive the table in any
order that the sockets allow; the master goes through its phases.  A worker is named by
its rank, and so is the master's end of its connection.  `Inv` says, for each phase of
the master, where each worker is and what its connection has on the wire.  The phase
that fills the table goes over the workers in the order of acceptance, and that order
does not matter, since each entry has its own index.
-/
import MiniCcl.Bootstrap
import Mathlib.Logic.Function.Basic
import MiniCcl.Confluence

namespace MiniCcl.Bootstrap

open Utils
open scoped List

/-! ### States and steps -/

/-- Where `RunMaster` is. -/
inductive MasterPc
  | start
  | accepting (workerSocks : List ℕ)
  | receiving (received rest : List ℕ) (allNodes : List NodeInfo)
  | broadcasting (sent rest : List ℕ) (allNodes : List NodeInfo)
  | returned (allNodes : List NodeInfo)
  | fault
  deriving DecidableEq, Repr

/-- The listening socket is open. -/
def MasterPc.Listening : MasterPc → Prop
  | start => False
  | returned _ => False
  | _ => True

/-- Where `RunWorker` is. -/
inductive WorkerPc
  | start
  | connected
  | waiting
  | returned (allNodes : List NodeInfo)
  | fault
  deriving DecidableEq, Repr

/-- A worker and its connection: the streams to and from the master. -/
structure Worker where
  pc : WorkerPc
  up : List UInt8
  down : List UInt8
  deriving DecidableEq, Repr

structure State where
  master : MasterPc
  /-- The connections that have not been accepted. -/
  pending : List ℕ
  worker : ℕ → Worker

namespace State

def init : State where
  master := .start
  pending := []
  worker _ := ⟨.start, [], []⟩

def setWorker (s : State) (r : ℕ) (w : Worker) : State :=
  { s with worker := Function.update s.worker r w }

/-- What `Run` has returned on a rank. -/
def returned (s : State) (r : ℕ) : Option (List NodeInfo) :=
  if r = 0 then
    match s.master with
    | .returned allNodes => some allNodes
    | _ => none
  else
    match (s.worker r).pc with
    | .returned allNodes => some allNodes
    | _ => none

end State

/-- The `NodeInfo` that rank `r` makes of its address and its port. -/
def nodeInfo (ip : ℕ → List UInt8) (dataPort : ℕ → BitVec 16) (r : ℕ) : NodeInfo :=
  ⟨BitVec.ofNat 32 r, ip r, dataPort r⟩

/-- The rank of a worker. -/
def IsWorker (worldSize r : ℕ) : Prop := 1 ≤ r ∧ r < worldSize

inductive Action
  | listen
  | connect (r : ℕ)
  | accept (r : ℕ)
  | acceptedAll
  | sendNodeInfo (r : ℕ)
  | recvNodeInfo (r : ℕ)
  | receivedAll
  | broadcast (r : ℕ)
  | broadcastAll
  | recvAllNodes (r : ℕ)
  deriving DecidableEq, Repr

/-- The steps of all ranks, where rank `r` passes in `info r` and no socket operation
fails. -/
inductive Step (worldSize : ℕ) (info : ℕ → NodeInfo) : Lts State Action
  | listen {s : State} (h : s.master = .start) :
      Step worldSize info s .listen { s with master := .accepting [] }
  | connect {s : State} {r : ℕ} (hr : IsWorker worldSize r) (h : (s.worker r).pc = .start)
      (hlisten : s.master.Listening) :
      Step worldSize info s (.connect r)
        ({ s with pending := s.pending ++ [r] }.setWorker r { s.worker r with pc := .connected })
  -- any pending connection
  | accept {s : State} {r : ℕ} {workerSocks : List ℕ} (h : s.master = .accepting workerSocks)
      (hmore : workerSocks.length < worldSize - 1) (hr : r ∈ s.pending) :
      Step worldSize info s (.accept r)
        { s with master := .accepting (workerSocks ++ [r]), pending := s.pending.erase r }
  | acceptedAll {s : State} {workerSocks : List ℕ} (h : s.master = .accepting workerSocks)
      (hmore : ¬ workerSocks.length < worldSize - 1) :
      Step worldSize info s .acceptedAll
        { s with master := .receiving [] workerSocks (masterTable worldSize (info 0)) }
  | sendNodeInfo {s : State} {r : ℕ} (hr : IsWorker worldSize r)
      (h : (s.worker r).pc = .connected) :
      Step worldSize info s (.sendNodeInfo r) (s.setWorker r
        { s.worker r with
          pc := .waiting
          up := (s.worker r).up ++ sendAll (encodeNodeInfo [] (info r)) })
  | recvNodeInfo {s : State} {r : ℕ} {received rest : List ℕ} {allNodes : List NodeInfo}
      {buffer up : List UInt8} {node : NodeInfo}
      (h : s.master = .receiving received (r :: rest) allNodes)
      (hrecv : recvAll (s.worker r).up = some (buffer, up))
      (hnode : Bootstrap.recvNodeInfo (some buffer) = .ok (some node))
      (hin : InTable allNodes node) :
      Step worldSize info s (.recvNodeInfo r)
        ({ s with master := .receiving (received ++ [r]) rest (store allNodes node) }.setWorker r
          { s.worker r with up := up })
  | recvNodeInfoFault {s : State} {r : ℕ} {received rest : List ℕ} {allNodes : List NodeInfo}
      {buffer up : List UInt8} (h : s.master = .receiving received (r :: rest) allNodes)
      (hrecv : recvAll (s.worker r).up = some (buffer, up))
      (hnode : ∀ node, Bootstrap.recvNodeInfo (some buffer) = .ok (some node) →
        ¬ InTable allNodes node) :
      Step worldSize info s (.recvNodeInfo r) { s with master := .fault }
  | receivedAll {s : State} {received : List ℕ} {allNodes : List NodeInfo}
      (h : s.master = .receiving received [] allNodes) :
      Step worldSize info s .receivedAll { s with master := .broadcasting [] received allNodes }
  | broadcast {s : State} {r : ℕ} {sent rest : List ℕ} {allNodes : List NodeInfo}
      (h : s.master = .broadcasting sent (r :: rest) allNodes) :
      Step worldSize info s (.broadcast r)
        ({ s with master := .broadcasting (sent ++ [r]) rest allNodes }.setWorker r
          { s.worker r with down := (s.worker r).down ++ sendAll (encodeAllNodes allNodes) })
  | broadcastAll {s : State} {sent : List ℕ} {allNodes : List NodeInfo}
      (h : s.master = .broadcasting sent [] allNodes) :
      Step worldSize info s .broadcastAll { s with master := .returned allNodes }
  | recvAllNodes {s : State} {r : ℕ} {buffer down : List UInt8} {allNodes : List NodeInfo}
      {offset : ℕ} (hr : IsWorker worldSize r) (h : (s.worker r).pc = .waiting)
      (hrecv : recvAll (s.worker r).down = some (buffer, down))
      (hnodes : (decodeAllNodes buffer).run 0 = .ok (allNodes, offset)) :
      Step worldSize info s (.recvAllNodes r) (s.setWorker r
        { s.worker r with pc := .returned allNodes, down := down })
  | recvAllNodesFault {s : State} {r : ℕ} {buffer down : List UInt8} {fault : Fault}
      (hr : IsWorker worldSize r) (h : (s.worker r).pc = .waiting)
      (hrecv : recvAll (s.worker r).down = some (buffer, down))
      (hnodes : (decodeAllNodes buffer).run 0 = .error fault) :
      Step worldSize info s (.recvAllNodes r) (s.setWorker r { s.worker r with pc := .fault })

/-! ### The invariant -/

/-- The table of what the ranks pass in. -/
def table (worldSize : ℕ) (info : ℕ → NodeInfo) : List NodeInfo :=
  (List.range worldSize).map info

namespace Worker

def Fresh (w : Worker) : Prop := w = ⟨.start, [], []⟩

/-- The worker has connected, and the master has not read its `NodeInfo`. -/
def Announcing (info : NodeInfo) (w : Worker) : Prop :=
  w = ⟨.connected, [], []⟩ ∨ w = ⟨.waiting, sendAll (encodeNodeInfo [] info), []⟩

/-- The master has read the `NodeInfo`, and not sent the table. -/
def Received (w : Worker) : Prop := w = ⟨.waiting, [], []⟩

/-- The master has sent the table. -/
def Answered (nodes : List NodeInfo) (w : Worker) : Prop :=
  w = ⟨.waiting, [], sendAll (encodeAllNodes nodes)⟩ ∨ w = ⟨.returned nodes, [], []⟩

theorem Fresh.pc {w : Worker} (h : w.Fresh) : w.pc = .start := by
  rw [h]

theorem Announcing.pc {info : NodeInfo} {w : Worker} (h : w.Announcing info) :
    w.pc = .connected ∨ w.pc = .waiting := by
  rcases h with rfl | rfl
  · exact .inl rfl
  · exact .inr rfl

theorem Received.pc {w : Worker} (h : w.Received) : w.pc = .waiting := by
  rw [h]

theorem Answered.pc {nodes : List NodeInfo} {w : Worker} (h : w.Answered nodes) :
    w.pc = .waiting ∨ w.pc = .returned nodes := by
  rcases h with rfl | rfl
  · exact .inl rfl
  · exact .inr rfl

end Worker

/-- The entries of the master and of the workers `received` are right. -/
structure Filled (worldSize : ℕ) (info : ℕ → NodeInfo) (received : List ℕ)
    (allNodes : List NodeInfo) : Prop where
  length : allNodes.length = worldSize
  entry : ∀ r, r = 0 ∨ r ∈ received → allNodes[r]? = some (info r)

def workers (worldSize : ℕ) : List ℕ := List.range' 1 (worldSize - 1)

def Inv (worldSize : ℕ) (info : ℕ → NodeInfo) (s : State) : Prop :=
  match s.master with
  | .start => s.pending = [] ∧ ∀ r, (s.worker r).Fresh
  | .accepting socks => (socks ++ s.pending).Nodup ∧
      (∀ r ∈ socks ++ s.pending, IsWorker worldSize r ∧ (s.worker r).Announcing (info r)) ∧
      ∀ r, r ∉ socks ++ s.pending → (s.worker r).Fresh
  | .receiving received rest allNodes => Filled worldSize info received allNodes ∧
      received ++ rest ~ workers worldSize ∧ (∀ r ∈ received, (s.worker r).Received) ∧
      ∀ r ∈ rest, (s.worker r).Announcing (info r)
  | .broadcasting sent rest allNodes => allNodes = table worldSize info ∧
      sent ++ rest ~ workers worldSize ∧
      (∀ r ∈ sent, (s.worker r).Answered (table worldSize info)) ∧
      ∀ r ∈ rest, (s.worker r).Received
  | .returned allNodes => allNodes = table worldSize info ∧
      ∀ r ∈ workers worldSize, (s.worker r).Answered (table worldSize info)
  | .fault => False

section Step

variable {worldSize r : ℕ} {info : ℕ → NodeInfo} {s t : State} {w : Worker} {a : Action}

@[simp] theorem setWorker_master : (s.setWorker r w).master = s.master := rfl

@[simp] theorem setWorker_pending : (s.setWorker r w).pending = s.pending := rfl

@[simp] theorem setWorker_worker : (s.setWorker r w).worker r = w := by
  show Function.update s.worker r w r = w
  exact Function.update_self r w s.worker

@[simp] theorem setWorker_worker_of_ne {q : ℕ} (h : q ≠ r) :
    (s.setWorker r w).worker q = s.worker q := by
  show Function.update s.worker r w q = s.worker q
  exact Function.update_of_ne h w s.worker

/-- If the new state of the worker is as the old one, then this is so for every worker. -/
theorem setWorker_class {P : ℕ → Worker → Prop} (hw : P r (s.worker r) → P r w) {q : ℕ}
    (h : P q (s.worker q)) : P q ((s.setWorker r w).worker q) := by
  by_cases hq : q = r
  · subst hq
    rw [setWorker_worker]
    exact hw h
  · rwa [setWorker_worker_of_ne hq]

/-- One more worker has `P`. -/
theorem setWorker_done {P : Worker → Prop} {done : List ℕ} (h : ∀ q ∈ done, P (s.worker q))
    (hw : P w) : ∀ q ∈ done ++ [r], P ((s.setWorker r w).worker q) := by
  intro q hq
  by_cases hqr : q = r
  · subst hqr
    rwa [setWorker_worker]
  · rw [setWorker_worker_of_ne hqr]
    rcases List.mem_append.mp hq with hq | hq
    · exact h q hq
    · exact absurd (List.mem_singleton.mp hq) hqr

/-- The other workers are as before. -/
theorem setWorker_rest {P : ℕ → Worker → Prop} {rest : List ℕ}
    (h : ∀ q ∈ rest, P q (s.worker q)) (hr : r ∉ rest) :
    ∀ q ∈ rest, P q ((s.setWorker r w).worker q) := by
  intro q hq
  rw [setWorker_worker_of_ne (ne_of_mem_of_not_mem hq hr)]
  exact h q hq

theorem mem_workers : r ∈ workers worldSize ↔ IsWorker worldSize r := by
  rw [workers, List.mem_range'_1, IsWorker]
  omega

theorem inv_init : Inv worldSize info State.init :=
  ⟨rfl, fun _ => rfl⟩

/-- A worker may go on within the part of the protocol where it is. -/
theorem Inv.setWorker (h : Inv worldSize info s)
    (hfresh : (s.worker r).Fresh → w.Fresh)
    (hannouncing : (s.worker r).Announcing (info r) → w.Announcing (info r))
    (hreceived : (s.worker r).Received → w.Received)
    (hanswered : (s.worker r).Answered (table worldSize info) →
      w.Answered (table worldSize info)) :
    Inv worldSize info (s.setWorker r w) := by
  have keepFresh : ∀ q, (s.worker q).Fresh → ((s.setWorker r w).worker q).Fresh :=
    fun q => setWorker_class (P := fun _ w => w.Fresh) hfresh
  have keepAnnouncing : ∀ q, (s.worker q).Announcing (info q) →
      ((s.setWorker r w).worker q).Announcing (info q) :=
    fun q => setWorker_class (P := fun q w => w.Announcing (info q)) hannouncing
  have keepReceived : ∀ q, (s.worker q).Received → ((s.setWorker r w).worker q).Received :=
    fun q => setWorker_class (P := fun _ w => w.Received) hreceived
  have keepAnswered : ∀ q, (s.worker q).Answered (table worldSize info) →
      ((s.setWorker r w).worker q).Answered (table worldSize info) :=
    fun q => setWorker_class (P := fun _ w => w.Answered (table worldSize info)) hanswered
  unfold Inv at h ⊢
  rw [setWorker_master, setWorker_pending]
  cases hm : s.master with
  | start =>
      rw [hm] at h
      exact ⟨h.1, fun q => keepFresh q (h.2 q)⟩
  | accepting socks =>
      rw [hm] at h
      obtain ⟨hnodup, hin, hout⟩ := h
      exact ⟨hnodup, fun q hq => ⟨(hin q hq).1, keepAnnouncing q (hin q hq).2⟩,
        fun q hq => keepFresh q (hout q hq)⟩
  | receiving received rest allNodes =>
      rw [hm] at h
      obtain ⟨hfilled, hperm, hrec, hrest⟩ := h
      exact ⟨hfilled, hperm, fun q hq => keepReceived q (hrec q hq),
        fun q hq => keepAnnouncing q (hrest q hq)⟩
  | broadcasting sent rest allNodes =>
      rw [hm] at h
      obtain ⟨htable, hperm, hsent, hrest⟩ := h
      exact ⟨htable, hperm, fun q hq => keepAnswered q (hsent q hq),
        fun q hq => keepReceived q (hrest q hq)⟩
  | returned allNodes =>
      rw [hm] at h
      exact ⟨h.1, fun q hq => keepAnswered q (h.2 q hq)⟩
  | fault =>
      rw [hm] at h
      exact h.elim

/-- Every worker is in one of the four parts of the protocol. -/
theorem Inv.worker_cases (h : Inv worldSize info s) (hr : IsWorker worldSize r) :
    (s.worker r).Fresh ∨ (s.worker r).Announcing (info r) ∨ (s.worker r).Received ∨
      (s.worker r).Answered (table worldSize info) := by
  unfold Inv at h
  split at h
  · exact .inl (h.2 r)
  · next socks _ =>
      by_cases hmem : r ∈ socks ++ s.pending
      · exact .inr (.inl (h.2.1 r hmem).2)
      · exact .inl (h.2.2 r hmem)
  · obtain ⟨-, hperm, hrec, hrest⟩ := h
    rcases List.mem_append.mp (hperm.mem_iff.mpr (mem_workers.mpr hr)) with hmem | hmem
    · exact .inr (.inr (.inl (hrec r hmem)))
    · exact .inr (.inl (hrest r hmem))
  · obtain ⟨-, hperm, hsent, hrest⟩ := h
    rcases List.mem_append.mp (hperm.mem_iff.mpr (mem_workers.mpr hr)) with hmem | hmem
    · exact .inr (.inr (.inr (hsent r hmem)))
    · exact .inr (.inr (.inl (hrest r hmem)))
  · exact .inr (.inr (.inr (h.2 r (mem_workers.mpr hr))))
  · exact h.elim

/-! ### The table -/

theorem length_table (worldSize : ℕ) (info : ℕ → NodeInfo) :
    (table worldSize info).length = worldSize := by
  rw [table, List.length_map, List.length_range]

theorem getElem?_table (h : r < worldSize) (info : ℕ → NodeInfo) :
    (table worldSize info)[r]? = some (info r) := by
  rw [table, List.getElem?_map, List.getElem?_range h]
  rfl

theorem filled_master (hn : 1 ≤ worldSize) (info : ℕ → NodeInfo) :
    Filled worldSize info [] (masterTable worldSize (info 0)) where
  length := length_masterTable worldSize (info 0)
  entry q hq := by
    rcases hq with rfl | hq
    · exact getElem?_masterTable_zero hn (info 0)
    · exact absurd hq List.not_mem_nil

/-- An entry has its own index: the others stay as they are. -/
theorem Filled.store {received : List ℕ} {allNodes : List NodeInfo}
    (h : Filled worldSize info received allNodes) (hr : r < worldSize)
    (hrank : (info r).rank.toInt = r) :
    Filled worldSize info (received ++ [r]) (Bootstrap.store allNodes (info r)) where
  length := (length_store allNodes (info r)).trans h.length
  entry q hq := by
    rw [Bootstrap.store, hrank, Int.toNat_natCast]
    by_cases hqr : r = q
    · subst hqr
      exact List.getElem?_set_self (hr.trans_eq h.length.symm)
    · rw [List.getElem?_set_ne hqr]
      refine h.entry q (hq.imp id fun hmem => ?_)
      rcases List.mem_append.mp hmem with hmem | hmem
      · exact hmem
      · exact absurd (List.mem_singleton.mp hmem).symm hqr

/-- With the entries of all ranks the table is complete. -/
theorem Filled.eq_table {received : List ℕ} {allNodes : List NodeInfo}
    (h : Filled worldSize info received allNodes) (hall : received ~ workers worldSize) :
    allNodes = table worldSize info := by
  refine List.ext_getElem? fun q => ?_
  by_cases hq : q < worldSize
  · rw [getElem?_table hq]
    refine h.entry q (q.eq_zero_or_pos.imp id fun hpos => ?_)
    exact hall.mem_iff.mpr (mem_workers.mpr ⟨hpos, hq⟩)
  · rw [List.getElem?_eq_none (by rw [h.length]; omega),
      List.getElem?_eq_none (by rw [length_table]; omega)]

/-- The master goes on from one worker to the next. -/
theorem next_worker {done rest : List ℕ} (h : done ++ r :: rest ~ workers worldSize) :
    IsWorker worldSize r ∧ r ∉ rest ∧ done ++ [r] ++ rest ~ workers worldSize := by
  have hnodup : (done ++ r :: rest).Nodup := h.nodup_iff.mpr List.nodup_range'
  refine ⟨mem_workers.mp (h.mem_iff.mp (List.mem_append_right _ List.mem_cons_self)), ?_, ?_⟩
  · exact (List.nodup_cons.mp hnodup.of_append_right).1
  · rwa [List.append_assoc]

/-- As many connections as there are workers are those of the workers. -/
theorem perm_workers {socks : List ℕ} (hnodup : socks.Nodup)
    (hin : ∀ q ∈ socks, IsWorker worldSize q) (hlen : ¬ socks.length < worldSize - 1) :
    socks ~ workers worldSize := by
  refine (hnodup.subperm fun q hq => mem_workers.mpr (hin q hq)).perm_of_length_le ?_
  rw [workers, List.length_range']
  exact Nat.le_of_not_lt hlen

/-- With fewer connections than workers, one of the workers has none. -/
theorem exists_worker_not_mem {socks : List ℕ} (hlen : socks.length < worldSize - 1) :
    ∃ q, IsWorker worldSize q ∧ q ∉ socks := by
  by_contra hall
  push Not at hall
  have hnodup : (workers worldSize).Nodup := List.nodup_range'
  have hle := (hnodup.subperm fun q hq => hall q (mem_workers.mp hq)).length_le
  rw [workers, List.length_range'] at hle
  omega

/-! ### What one step preserves -/

theorem recvAll_nil : recvAll [] = none := rfl

/-- What the messages have to satisfy: each has the rank of its sender, and they fit
into their frames. -/
structure Sendable (worldSize : ℕ) (info : ℕ → NodeInfo) : Prop where
  rank : ∀ r < worldSize, (info r).rank.toInt = r
  ip : ∀ r < worldSize, (info r).ipAddr.length < 2 ^ 31
  frame : (encodeAllNodes (table worldSize info)).length < 2 ^ 32

theorem Sendable.recvAll_up (h : Sendable worldSize info) (hr : r < worldSize) :
    recvAll (sendAll (encodeNodeInfo [] (info r))) = some (encodeNodeInfo [] (info r), []) := by
  have hlen : (encodeNodeInfo [] (info r)).length < 2 ^ 32 := by
    have hip := h.ip r hr
    rw [length_encodeNodeInfo]
    omega
  have hrecv := recvAll_sendAll hlen []
  rwa [List.append_nil] at hrecv

theorem Sendable.recvAll_down (h : Sendable worldSize info) :
    recvAll (sendAll (encodeAllNodes (table worldSize info)))
      = some (encodeAllNodes (table worldSize info), []) := by
  have hrecv := recvAll_sendAll h.frame []
  rwa [List.append_nil] at hrecv

/-- The table has at least 12 bytes for every rank. -/
theorem worldSize_lt (hframe : (encodeAllNodes (table worldSize info)).length < 2 ^ 32) :
    worldSize < 2 ^ 31 := by
  have htable := twelve_mul_length_le (table worldSize info)
  rw [encodeAllNodes, foldl_encodeNodeInfo, List.length_append] at hframe
  rw [length_table] at htable
  omega

/-- A worker reads from the table what the master has written. -/
theorem Sendable.decode (h : Sendable worldSize info) :
    (decodeAllNodes (encodeAllNodes (table worldSize info))).run 0
      = .ok (table worldSize info, (encodeAllNodes (table worldSize info)).length) := by
  have hip : ∀ node ∈ table worldSize info, node.ipAddr.length < 2 ^ 31 := by
    intro node hnode
    obtain ⟨r, hr, rfl⟩ := List.mem_map.mp hnode
    exact h.ip r (List.mem_range.mp hr)
  have hlen : (table worldSize info).length < 2 ^ 31 := by
    rw [length_table]
    exact worldSize_lt h.frame
  have hdecode := decodes_allNodes hlen hip [] []
  rwa [List.nil_append, List.append_nil] at hdecode

/-- Only a worker that waits for the table gets one. -/
theorem Inv.frame_down (h : Inv worldSize info s) (hinfo : Sendable worldSize info)
    (hr : IsWorker worldSize r) {buffer down : List UInt8}
    (hrecv : recvAll (s.worker r).down = some (buffer, down)) :
    s.worker r = ⟨.waiting, [], sendAll (encodeAllNodes (table worldSize info))⟩ ∧
      buffer = encodeAllNodes (table worldSize info) ∧ down = [] := by
  rcases h.worker_cases hr with hw | (hw | hw) | hw | (hw | hw)
  case inr.inr.inr.inl =>
    rw [hw, hinfo.recvAll_down] at hrecv
    cases hrecv
    exact ⟨hw, rfl, rfl⟩
  all_goals
    rw [hw, recvAll_nil] at hrecv
    cases hrecv

/-- What the master reads is the `NodeInfo` of the worker. -/
theorem Sendable.frame_up (hinfo : Sendable worldSize info) (hr : r < worldSize)
    (hw : (s.worker r).Announcing (info r)) {buffer up : List UInt8}
    (hrecv : recvAll (s.worker r).up = some (buffer, up)) :
    s.worker r = ⟨.waiting, sendAll (encodeNodeInfo [] (info r)), []⟩ ∧
      Bootstrap.recvNodeInfo (some buffer) = .ok (some (info r)) ∧ up = [] := by
  rcases hw with hw | hw
  · rw [hw, recvAll_nil] at hrecv
    cases hrecv
  · rw [hw, hinfo.recvAll_up hr] at hrecv
    cases hrecv
    exact ⟨hw, recvNodeInfo_encode (hinfo.ip r hr), rfl⟩

theorem Filled.inTable {received : List ℕ} {allNodes : List NodeInfo}
    (h : Filled worldSize info received allNodes) (hinfo : Sendable worldSize info)
    (hr : r < worldSize) : InTable allNodes (info r) := by
  rw [InTable, hinfo.rank r hr, h.length]
  omega

theorem Inv.connect (h : Inv worldSize info s) (hr : IsWorker worldSize r)
    (hpc : (s.worker r).pc = .start) (hlisten : s.master.Listening) :
    Inv worldSize info
      ({ s with pending := s.pending ++ [r] }.setWorker r
        { s.worker r with pc := .connected }) := by
  have hannouncing : ¬ (s.worker r).Announcing (info r) := fun hw => by simpa [hpc] using hw.pc
  have hreceived : ¬ (s.worker r).Received := fun hw => by simpa [hpc] using hw.pc
  have hanswered : ¬ (s.worker r).Answered (table worldSize info) :=
    fun hw => by simpa [hpc] using hw.pc
  unfold Inv at h ⊢
  rw [setWorker_master, setWorker_pending]
  cases hm : s.master with
  | start =>
      rw [hm] at hlisten
      exact hlisten.elim
  | accepting socks =>
      rw [hm] at h
      obtain ⟨hnodup, hin, hout⟩ := h
      -- a worker that the master knows of has connected
      have hnot : r ∉ socks ++ s.pending := fun hmem => hannouncing (hin r hmem).2
      have hfresh : (s.worker r).Fresh := hout r hnot
      show (socks ++ (s.pending ++ [r])).Nodup ∧ _
      rw [← List.append_assoc]
      refine ⟨?_, ?_, ?_⟩
      · refine hnodup.append (List.nodup_singleton r) fun q hq hqr => hnot ?_
        rwa [← List.mem_singleton.mp hqr]
      · intro q hq
        by_cases hqr : q = r
        · subst hqr
          rw [setWorker_worker, show s.worker q = _ from hfresh]
          exact ⟨hr, .inl rfl⟩
        · rw [setWorker_worker_of_ne hqr]
          rcases List.mem_append.mp hq with hq | hq
          · exact hin q hq
          · exact absurd (List.mem_singleton.mp hq) hqr
      · intro q hq
        have hqr : q ≠ r := by
          rintro rfl
          exact hq (List.mem_append_right _ (List.mem_singleton_self q))
        rw [setWorker_worker_of_ne hqr]
        exact hout q fun hmem => hq (List.mem_append_left _ hmem)
  | receiving received rest allNodes =>
      rw [hm] at h
      obtain ⟨-, hperm, hrec, hrest⟩ := h
      rcases List.mem_append.mp (hperm.mem_iff.mpr (mem_workers.mpr hr)) with hmem | hmem
      · exact absurd (hrec r hmem) hreceived
      · exact absurd (hrest r hmem) hannouncing
  | broadcasting sent rest allNodes =>
      rw [hm] at h
      obtain ⟨-, hperm, hsent, hrest⟩ := h
      rcases List.mem_append.mp (hperm.mem_iff.mpr (mem_workers.mpr hr)) with hmem | hmem
      · exact absurd (hsent r hmem) hanswered
      · exact absurd (hrest r hmem) hreceived
  | returned allNodes =>
      rw [hm] at hlisten
      exact hlisten.elim
  | fault =>
      rw [hm] at h
      exact h.elim

/-- The master takes a connection. -/
theorem Inv.accept (h : Inv worldSize info s) {socks : List ℕ} (hm : s.master = .accepting socks)
    (hr : r ∈ s.pending) :
    Inv worldSize info
      { s with master := .accepting (socks ++ [r]), pending := s.pending.erase r } := by
  rw [Inv, hm] at h
  obtain ⟨hnodup, hin, hout⟩ := h
  have hperm : socks ++ [r] ++ s.pending.erase r ~ socks ++ s.pending := by
    rw [List.append_assoc]
    exact (List.perm_cons_erase hr).symm.append_left socks
  exact ⟨hperm.nodup_iff.mpr hnodup, fun q hq => hin q (hperm.mem_iff.mp hq),
    fun q hq => hout q fun hmem => hq (hperm.mem_iff.mpr hmem)⟩

theorem Inv.sendNodeInfo (h : Inv worldSize info s) (hpc : (s.worker r).pc = .connected) :
    Inv worldSize info (s.setWorker r
      { s.worker r with
        pc := .waiting
        up := (s.worker r).up ++ sendAll (encodeNodeInfo [] (info r)) }) := by
  refine h.setWorker ?_ ?_ ?_ ?_
  · exact fun hw => by simpa [hpc] using hw.pc
  · rintro (hw | hw)
    · right
      rw [hw]
      rfl
    · rw [hw] at hpc
      cases hpc
  · exact fun hw => by simpa [hpc] using hw.pc
  · exact fun hw => by simpa [hpc] using hw.pc

/-- The master stores the `NodeInfo` of the next worker. -/
theorem Inv.recvNodeInfo (h : Inv worldSize info s) (hinfo : Sendable worldSize info)
    {received rest : List ℕ} {allNodes : List NodeInfo} {buffer up : List UInt8} {node : NodeInfo}
    (hm : s.master = .receiving received (r :: rest) allNodes)
    (hrecv : recvAll (s.worker r).up = some (buffer, up))
    (hnode : Bootstrap.recvNodeInfo (some buffer) = .ok (some node)) :
    Inv worldSize info
      ({ s with master := .receiving (received ++ [r]) rest (store allNodes node) }.setWorker r
        { s.worker r with up := up }) := by
  rw [Inv, hm] at h
  obtain ⟨hfilled, hperm, hrec, hrest⟩ := h
  obtain ⟨hr, hnot, hnext⟩ := next_worker hperm
  obtain ⟨hw, hdecode, rfl⟩ := hinfo.frame_up hr.2 (hrest r List.mem_cons_self) hrecv
  rw [hdecode] at hnode
  cases hnode
  refine ⟨hfilled.store hr.2 (hinfo.rank r hr.2), hnext, ?_, ?_⟩
  · exact setWorker_done (s := { s with master := _ }) hrec (by rw [hw]; rfl)
  · exact setWorker_rest (s := { s with master := _ })
      (fun q hq => hrest q (List.mem_cons_of_mem r hq)) hnot

/-- The master sends the table to the next worker. -/
theorem Inv.broadcast (h : Inv worldSize info s) {sent rest : List ℕ} {allNodes : List NodeInfo}
    (hm : s.master = .broadcasting sent (r :: rest) allNodes) :
    Inv worldSize info
      ({ s with master := .broadcasting (sent ++ [r]) rest allNodes }.setWorker r
        { s.worker r with down := (s.worker r).down ++ sendAll (encodeAllNodes allNodes) }) := by
  rw [Inv, hm] at h
  obtain ⟨rfl, hperm, hsent, hrest⟩ := h
  obtain ⟨-, hnot, hnext⟩ := next_worker hperm
  have hw : (s.worker r).Received := hrest r List.mem_cons_self
  refine ⟨rfl, hnext, ?_, ?_⟩
  · refine setWorker_done (s := { s with master := _ }) hsent (.inl ?_)
    rw [hw]
    rfl
  · exact setWorker_rest (s := { s with master := _ })
      (fun q hq => hrest q (List.mem_cons_of_mem r hq)) hnot

/-- A worker returns with the table. -/
theorem Inv.recvAllNodes (h : Inv worldSize info s) (hinfo : Sendable worldSize info)
    (hr : IsWorker worldSize r) (hpc : (s.worker r).pc = .waiting) {buffer down : List UInt8}
    {allNodes : List NodeInfo} {offset : ℕ}
    (hrecv : recvAll (s.worker r).down = some (buffer, down))
    (hnodes : (decodeAllNodes buffer).run 0 = .ok (allNodes, offset)) :
    Inv worldSize info
      (s.setWorker r { s.worker r with pc := .returned allNodes, down := down }) := by
  obtain ⟨hw, rfl, rfl⟩ := h.frame_down hinfo hr hrecv
  rw [hinfo.decode] at hnodes
  cases hnodes
  refine h.setWorker ?_ ?_ ?_ ?_
  · exact fun hfresh => by simpa [hpc] using hfresh.pc
  · rintro (hannouncing | hannouncing) <;>
      · rw [hannouncing, recvAll_nil] at hrecv
        cases hrecv
  · intro hreceived
    rw [hreceived, recvAll_nil] at hrecv
    cases hrecv
  · intro _
    right
    rw [hw]

/-- **One step keeps the invariant.** -/
theorem Inv.step (hn : 1 ≤ worldSize) (hinfo : Sendable worldSize info)
    (h : Inv worldSize info s) (hstep : Step worldSize info s a t) : Inv worldSize info t := by
  cases hstep with
  | listen hm =>
      rw [Inv, hm] at h
      obtain ⟨hpending, hfresh⟩ := h
      show (([] : List ℕ) ++ s.pending).Nodup ∧ _
      rw [hpending]
      exact ⟨List.nodup_nil, fun q hq => absurd hq List.not_mem_nil, fun q _ => hfresh q⟩
  | connect hr hpc hlisten => exact h.connect hr hpc hlisten
  | accept hm hmore hr => exact h.accept hm hr
  | @acceptedAll _ socks hm hmore =>
      rw [Inv, hm] at h
      obtain ⟨hnodup, hin, -⟩ := h
      have hsocks : ∀ q ∈ socks, IsWorker worldSize q ∧ (s.worker q).Announcing (info q) :=
        fun q hq => hin q (List.mem_append_left _ hq)
      exact ⟨filled_master hn info,
        perm_workers hnodup.of_append_left (fun q hq => (hsocks q hq).1) hmore,
        fun q hq => absurd hq List.not_mem_nil, fun q hq => (hsocks q hq).2⟩
  | sendNodeInfo hr hpc => exact h.sendNodeInfo hpc
  | recvNodeInfo hm hrecv hnode hin => exact h.recvNodeInfo hinfo hm hrecv hnode
  | @recvNodeInfoFault _ r received rest allNodes buffer up hm hrecv hnode =>
      rw [Inv, hm] at h
      obtain ⟨hfilled, hperm, hrec, hrest⟩ := h
      obtain ⟨hr, -, -⟩ := next_worker hperm
      obtain ⟨-, hdecode, -⟩ := hinfo.frame_up hr.2 (hrest r List.mem_cons_self) hrecv
      exact absurd (hfilled.inTable hinfo hr.2) (hnode (info r) hdecode)
  | @receivedAll _ received allNodes hm =>
      rw [Inv, hm] at h
      obtain ⟨hfilled, hperm, hrec, -⟩ := h
      rw [List.append_nil] at hperm
      exact ⟨hfilled.eq_table hperm, hperm, fun q hq => absurd hq List.not_mem_nil, hrec⟩
  | broadcast hm => exact h.broadcast hm
  | broadcastAll hm =>
      rw [Inv, hm] at h
      obtain ⟨htable, hperm, hsent, -⟩ := h
      rw [List.append_nil] at hperm
      exact ⟨htable, fun q hq => hsent q (hperm.mem_iff.mpr hq)⟩
  | recvAllNodes hr hpc hrecv hnodes => exact h.recvAllNodes hinfo hr hpc hrecv hnodes
  | @recvAllNodesFault _ r buffer down fault hr hpc hrecv hnodes =>
      obtain ⟨-, rfl, -⟩ := h.frame_down hinfo hr hrecv
      rw [hinfo.decode] at hnodes
      cases hnodes

theorem inv_of_reaches (hn : 1 ≤ worldSize) (hinfo : Sendable worldSize info)
    (h : (Step worldSize info).Reaches State.init s) : Inv worldSize info s := by
  induction h with
  | refl => exact inv_init
  | tail _ hstep ih =>
      obtain ⟨a, hstep⟩ := hstep
      exact ih.step hn hinfo hstep

/-! ### What `Run` returns -/

theorem Inv.returned_eq (h : Inv worldSize info s) (hr : r < worldSize) {allNodes : List NodeInfo}
    (hreturned : s.returned r = some allNodes) : allNodes = table worldSize info := by
  unfold State.returned at hreturned
  split at hreturned
  · -- the master
    split at hreturned
    · next hm =>
        cases hreturned
        rw [Inv, hm] at h
        exact h.1
    · cases hreturned
  · next hpos =>
      split at hreturned
      · next hpc =>
          cases hreturned
          rcases h.worker_cases ⟨Nat.one_le_iff_ne_zero.mpr hpos, hr⟩ with
            hw | (hw | hw) | hw | (hw | hw)
          case inr.inr.inr.inr =>
            rw [hw] at hpc
            cases hpc
            rfl
          all_goals
            rw [hw] at hpc
            cases hpc
      · cases hreturned

/-- **The run ends on all ranks**: a state without a next step is one in which all have
returned. -/
theorem Inv.returned_of_terminal (hinfo : Sendable worldSize info)
    (h : Inv worldSize info s) (hterminal : (Step worldSize info).Terminal s)
    (hr : r < worldSize) : s.returned r = some (table worldSize info) := by
  have hinv := h
  unfold Inv at h
  split at h
  · next hm => exact absurd (.listen hm) (hterminal .listen _)
  · next socks hm =>
      by_cases hmore : socks.length < worldSize - 1
      · cases hpending : s.pending with
        | cons q pending =>
            have hq : q ∈ s.pending := hpending ▸ List.mem_cons_self
            exact absurd (.accept hm hmore hq) (hterminal (.accept q) _)
        | nil =>
            -- some worker has not connected
            obtain ⟨q, hq, hnot⟩ := exists_worker_not_mem hmore
            rw [hpending, List.append_nil] at h
            have hpc : (s.worker q).pc = .start := congrArg Worker.pc (h.2.2 q hnot)
            have hlisten : s.master.Listening := by
              rw [hm]
              trivial
            exact absurd (.connect hq hpc hlisten) (hterminal (.connect q) _)
      · exact absurd (.acceptedAll hm hmore) (hterminal .acceptedAll _)
  · next received rest allNodes hm =>
      cases rest with
      | nil => exact absurd (.receivedAll hm) (hterminal .receivedAll _)
      | cons q rest =>
          obtain ⟨hfilled, hperm, -, hrest⟩ := h
          obtain ⟨hq, -, -⟩ := next_worker hperm
          rcases hrest q List.mem_cons_self with hw | hw
          · exact absurd (.sendNodeInfo hq (by rw [hw])) (hterminal (.sendNodeInfo q) _)
          · have hrecv := hinfo.recvAll_up hq.2
            have hstep : Step worldSize info s (.recvNodeInfo q) _ :=
              .recvNodeInfo hm (by rw [hw]; exact hrecv) (recvNodeInfo_encode (hinfo.ip q hq.2))
                (hfilled.inTable hinfo hq.2)
            exact absurd hstep (hterminal (.recvNodeInfo q) _)
  · next sent rest allNodes hm =>
      cases rest with
      | nil => exact absurd (.broadcastAll hm) (hterminal .broadcastAll _)
      | cons q rest => exact absurd (.broadcast hm) (hterminal (.broadcast q) _)
  · next allNodes hm =>
      obtain ⟨rfl, hanswered⟩ := h
      unfold State.returned
      split
      · rw [hm]
      · next hpos =>
          have hworker : IsWorker worldSize r := ⟨Nat.one_le_iff_ne_zero.mpr hpos, hr⟩
          rcases hanswered r (mem_workers.mpr hworker) with hw | hw
          · have hstep : Step worldSize info s (.recvAllNodes r) _ :=
              .recvAllNodes hworker (by rw [hw]) (by rw [hw]; exact hinfo.recvAll_down) hinfo.decode
            exact absurd hstep (hterminal (.recvAllNodes r) _)
          · rw [hw]
  · exact h.elim

end Step

/-- The `NodeInfo`s of the ranks can be sent. -/
theorem sendable_nodeInfo {worldSize : ℕ} {ip : ℕ → List UInt8} {dataPort : ℕ → BitVec 16}
    (hip : ∀ r < worldSize, (ip r).length < 2 ^ 31)
    (hframe : (encodeAllNodes (table worldSize (nodeInfo ip dataPort))).length < 2 ^ 32) :
    Sendable worldSize (nodeInfo ip dataPort) where
  rank r hr := by
    have hlt : worldSize < 2 ^ 31 := worldSize_lt hframe
    show (BitVec.ofNat 32 r).toInt = r
    have hnat : (BitVec.ofNat 32 r).toNat = r := Nat.mod_eq_of_lt (by omega)
    rw [BitVec.toInt_eq_toNat_of_lt, hnat]
    rw [hnat]
    omega
  ip := hip
  frame := hframe

/-- **Every rank gets the same, complete table.** -/
theorem table_agrees {worldSize : ℕ} (hn : 1 ≤ worldSize) {ip : ℕ → List UInt8}
    {dataPort : ℕ → BitVec 16} (hip : ∀ r < worldSize, (ip r).length < 2 ^ 31)
    (hframe : (encodeAllNodes (table worldSize (nodeInfo ip dataPort))).length < 2 ^ 32)
    {s : State} (h : (Step worldSize (nodeInfo ip dataPort)).Reaches State.init s) {r : ℕ}
    (hr : r < worldSize) {allNodes : List NodeInfo} (hreturned : s.returned r = some allNodes) :
    allNodes.length = worldSize ∧
      (∀ i < worldSize, allNodes[i]? = some (nodeInfo ip dataPort i)) ∧
      ∀ q < worldSize, ∀ allNodes', s.returned q = some allNodes' → allNodes' = allNodes := by
  have hinv := inv_of_reaches hn (sendable_nodeInfo hip hframe) h
  obtain rfl := hinv.returned_eq hr hreturned
  refine ⟨length_table worldSize _, fun i hi => getElem?_table hi _, ?_⟩
  intro q hq allNodes' hreturned'
  exact hinv.returned_eq hq hreturned'

/-- A worker with the address `::1`, whose `NodeInfo` arrives. -/
theorem table_agrees_two :
    ∃ s : State, (Step 2 (nodeInfo (fun _ => [58, 58, 49]) fun _ => 80)).Reaches State.init s ∧
      s.returned 1 = some [⟨0, [58, 58, 49], 80⟩, ⟨1, [58, 58, 49], 80⟩] ∧
      ∀ q < 2, ∀ allNodes', s.returned q = some allNodes' →
        allNodes' = [⟨0, [58, 58, 49], 80⟩, ⟨1, [58, 58, 49], 80⟩] := by
  have hip : ∀ r < 2, ((fun _ => [58, 58, 49] : ℕ → List UInt8) r).length < 2 ^ 31 := by
    intro r _
    show 3 < 2 ^ 31
    decide
  have hinfo : Sendable 2 (nodeInfo (fun _ => [58, 58, 49]) fun _ => 80) :=
    sendable_nodeInfo hip (by decide)
  have hrun : ∃ s : State,
      (Step 2 (nodeInfo (fun _ => [58, 58, 49]) fun _ => 80)).Reaches State.init s ∧
      s.returned 1 = some [⟨0, [58, 58, 49], 80⟩, ⟨1, [58, 58, 49], 80⟩] := by
    have hr : IsWorker 2 1 := ⟨by decide, by decide⟩
    refine ⟨_, .head ⟨_, .listen rfl⟩ <| .head ⟨_, .connect hr rfl trivial⟩ <|
      .head ⟨_, .accept rfl (by decide) List.mem_cons_self⟩ <|
      .head ⟨_, .acceptedAll rfl (by decide)⟩ <| .head ⟨_, .sendNodeInfo hr rfl⟩ <|
      .head ⟨_, .recvNodeInfo rfl (hinfo.recvAll_up hr.2)
        (recvNodeInfo_encode (hinfo.ip 1 hr.2)) (by decide)⟩ <| .head ⟨_, .receivedAll rfl⟩ <|
      .head ⟨_, .broadcast rfl⟩ <| .head ⟨_, .broadcastAll rfl⟩ <|
      .single ⟨_, .recvAllNodes hr rfl hinfo.recvAll_down hinfo.decode⟩, rfl⟩
  obtain ⟨s, hreaches, hreturned⟩ := hrun
  refine ⟨s, hreaches, hreturned, ?_⟩
  exact (table_agrees (by decide) hip (by decide) hreaches
    (r := 1) (by decide) hreturned).2.2

end MiniCcl.Bootstrap
