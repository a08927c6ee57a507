/-
MiniCcl/RdmaHandshake.lean

`Connect` on one side and `Accept` on the other: how two queue pairs find each other.

Each side brings its queue pair up by three calls of `ibv_modify_qp`, and in between the
two tell each other their QP info over a TCP connection.  The connecting side sends first,
the accepting side receives first.  Every call may fail, also in the middle of a frame, and
a side that gives up closes its end.

While a side has not given up, everything it has is determined by where it is in its call
(`expected`), and what is on the wire is a part of one frame (`Inv`).  From that follows
what the two know of each other when they return (`handshake_agrees`), and that one of the
two can always go on, with two exceptions (`handshake_progress`).
-/
import MiniCcl.Framing
import MiniCcl.RdmaQpInfo

namespace MiniCcl.TransportRdma

open Utils

/-! ### Queue pairs -/

inductive QpState
  | reset
  | init
  | rtr
  | rts
  deriving DecidableEq, Repr

inductive LinkLayer
  | infiniband
  | ethernet
  deriving DecidableEq, Repr

/-- `ah_attr` with its `grh`: the way to the remote port. -/
structure AhAttr where
  dlid : BitVec 16
  isGlobal : Bool
  dgid : Gid
  sgidIndex : ℕ
  hopLimit : ℕ
  deriving DecidableEq

/-- A queue pair with the attributes that have been set, and the buffers whose receive
WRs are posted. -/
structure Qp where
  state : QpState
  destQpNum : BitVec 32
  ahAttr : AhAttr
  pathMtu : ℕ
  rqPsn : ℕ
  sqPsn : ℕ
  maxDestRdAtomic : ℕ
  maxRdAtomic : ℕ
  minRnrTimer : ℕ
  timeout : ℕ
  retryCnt : ℕ
  rnrRetry : ℕ
  posted : List ℕ
  deriving DecidableEq

/-- What `ibv_create_qp` returns. -/
def Qp.created : Qp := ⟨.reset, 0, ⟨0, false, Gid.zero, 0, 0⟩, 0, 0, 0, 0, 0, 0, 0, 0, 0, []⟩

/-- A host: its byte order, what the device says about its port and its queue pair, and the
configuration of its transport. -/
structure Host where
  order : ByteOrder
  qpNum : BitVec 32
  lid : BitVec 16
  linkLayer : LinkLayer
  queryGid : GidTable
  enableZeroCopy : Bool
  bufferCount : ℕ

namespace Host

/-- The local QP info of `ExchangeQPInfo`. -/
def qpInfo (h : Host) : RdmaQpInfo :=
  let best := findBestGidIndex h.queryGid
  ⟨h.qpNum, h.lid, best.2, BitVec.ofNat 32 best.1⟩

/-- What it sends. -/
def frame (h : Host) : List UInt8 := Utils.sendAll (encodeQpInfo h.order h.qpInfo [])

theorem recvAll_frame (h : Host) :
    Utils.recvAll h.frame = some (encodeQpInfo h.order h.qpInfo [], []) := by
  have hlen : (encodeQpInfo h.order h.qpInfo []).length < 2 ^ 32 := by
    rw [length_encodeQpInfo]
    exact Nat.lt_of_lt_of_le (by decide : [].length + 26 < 27) (by decide)
  have hrecv := Utils.recvAll_sendAll hlen []
  rwa [List.append_nil] at hrecv

theorem frame_ne_nil (h : Host) : h.frame ≠ [] := by
  intro hnil
  have hrecv := h.recvAll_frame
  rw [hnil] at hrecv
  cases hrecv

end Host

/-! `ibv_modify_qp` accepts a change of state only from the state before it. -/

/-- `TransportRdma::ModifyQPToInit` -/
def modifyQPToInit (qp : Qp) : Option Qp :=
  if qp.state = .reset then some { qp with state := .init } else none

/-- `TransportRdma::ModifyQPToRTR` -/
def modifyQPToRTR (h : Host) (localGidIndex : ℕ) (remote : RdmaQpInfo) (qp : Qp) : Option Qp :=
  if qp.state = .init then
    some { qp with
      state := .rtr
      pathMtu := 4096
      destQpNum := remote.qpn
      rqPsn := 0
      maxDestRdAtomic := 1
      minRnrTimer := 12
      ahAttr := match h.linkLayer with
        | .ethernet => ⟨remote.lid, true, remote.gid, localGidIndex, 255⟩
        | .infiniband => ⟨remote.lid, false, Gid.zero, 0, 0⟩ }
  else none

/-- `TransportRdma::ModifyQPToRTS` -/
def modifyQPToRTS (qp : Qp) : Option Qp :=
  if qp.state = .rtr then
    some { qp with
      state := .rts, sqPsn := 0, timeout := 14, retryCnt := 7, rnrRetry := 7, maxRdAtomic := 1 }
  else none

/-- `max_recv_wr` -/
def maxRecvWr : ℕ := 16

/-- `ibv_post_recv` for a buffer. -/
def postRecv (id : ℕ) (qp : Qp) : Option Qp :=
  if qp.state ≠ .reset ∧ qp.posted.length < maxRecvWr then
    some { qp with posted := qp.posted ++ [id] }
  else none

/-! ### States and steps -/

namespace Handshake

/-- Where `Connect` or `Accept` is. -/
inductive Pc
  | initRdmaResources
  | createSocket
  | modifyQPToInit
  | prepareInfo
  | sendInfo
  | recvInfo
  | decodeInfo
  | modifyQPToRTR
  | modifyQPToRTS
  | postRecvWRs (i : ℕ)
  | returned (ok : Bool)
  deriving DecidableEq, Repr

namespace Pc

/-- Send first or receive first to avoid deadlock. -/
def afterPrepare : Side → Pc
  | .connecting => sendInfo
  | .accepting => recvInfo

def afterSend : Side → Pc
  | .connecting => recvInfo
  | .accepting => decodeInfo

def afterRecv : Side → Pc
  | .connecting => decodeInfo
  | .accepting => sendInfo

/-- Receive WRs are posted only if zero copy is disabled. -/
def afterRTS (h : Host) : Pc := if h.enableZeroCopy then returned true else postRecvWRs 0

end Pc

structure Endpoint where
  pc : Pc
  qp : Option Qp
  localGidIndex : ℕ
  recvBuffer : Option (List UInt8)
  remote : RdmaQpInfo
  /-- `tcp_sock_fd` is open. -/
  sockOpen : Bool
  deriving DecidableEq

namespace Endpoint

def start : Endpoint := ⟨.initRdmaResources, none, 0, none, ⟨0, 0, Gid.zero, 0⟩, false⟩

/-- The call has returned false, and `Close` or the end of the call has released
everything. -/
def closed : Endpoint := { start with pc := .returned false }

end Endpoint

structure State where
  endpoint : Side → Endpoint
  /-- The bytes that a side has sent and that have not been received. -/
  wire : Side → List UInt8
  /-- The accepting side's `tcp_listen_fd` is open. -/
  listening : Bool
  /-- The TCP connection has been made. -/
  established : Bool

namespace State

def init : State := ⟨fun _ => .start, fun _ => [], true, false⟩

def set (s : State) (p : Side) (e : Endpoint) : State :=
  { s with endpoint := Function.update s.endpoint p e }

/-- Side `p` gives up.  `Close` also closes the listening socket, but a failed
`InitRdmaResources` does not come to it. -/
def giveUp (s : State) (p : Side) : State :=
  { s.set p .closed with
    listening := s.listening &&
      (p = .connecting || (s.endpoint .accepting).pc = .initRdmaResources) }

/-- No more bytes come to side `p`: the other side has closed its end, or it has closed the
listening socket without having accepted the connection. -/
def Ended (s : State) : Side → Prop
  | .connecting => s.listening = false
  | .accepting => (s.endpoint .connecting).sockOpen = false

end State

inductive Action
  | advance
  /-- A call fails because the other side has given up. -/
  | endOfStream
  /-- A call fails for another reason. -/
  | fault
  deriving DecidableEq, Repr

/-- The steps of the two sides, given their hosts. -/
inductive Step (host : Side → Host) : Lts State (Side × Action)
  | initRdmaResources {s : State} {p : Side} {e : Endpoint} (h : s.endpoint p = e)
      (hpc : e.pc = .initRdmaResources) :
      Step host s (p, .advance) (s.set p { e with qp := some .created, pc := .createSocket })
  | connect {s : State} {e : Endpoint} (h : s.endpoint .connecting = e)
      (hpc : e.pc = .createSocket) (hlisten : s.listening = true) :
      Step host s (.connecting, .advance)
        { s.set .connecting { e with sockOpen := true, pc := .modifyQPToInit } with
          established := true }
  | accept {s : State} {e : Endpoint} (h : s.endpoint .accepting = e)
      (hpc : e.pc = .createSocket) (hconn : s.established = true) :
      Step host s (.accepting, .advance)
        (s.set .accepting { e with sockOpen := true, pc := .modifyQPToInit })
  | modifyQPToInit {s : State} {p : Side} {e : Endpoint} {qp qp' : Qp} (h : s.endpoint p = e)
      (hpc : e.pc = .modifyQPToInit) (hqp : e.qp = some qp) (hok : modifyQPToInit qp = some qp') :
      Step host s (p, .advance) (s.set p { e with qp := some qp', pc := .prepareInfo })
  | prepareInfo {s : State} {p : Side} {e : Endpoint} (h : s.endpoint p = e)
      (hpc : e.pc = .prepareInfo) :
      Step host s (p, .advance)
        (s.set p { e with
          localGidIndex := (findBestGidIndex (host p).queryGid).1, pc := .afterPrepare p })
  | sendInfo {s : State} {p : Side} {e : Endpoint} (h : s.endpoint p = e)
      (hpc : e.pc = .sendInfo) :
      Step host s (p, .advance)
        { s.set p { e with pc := .afterSend p } with
          wire := Function.update s.wire p (s.wire p ++ (host p).frame) }
  | recvInfo {s : State} {p : Side} {e : Endpoint} {data rest : List UInt8}
      (h : s.endpoint p = e) (hpc : e.pc = .recvInfo)
      (hrecv : Utils.recvAll (s.wire p.peer) = some (data, rest)) :
      Step host s (p, .advance)
        { s.set p { e with recvBuffer := some data, pc := .afterRecv p } with
          wire := Function.update s.wire p.peer rest }
  | decodeInfo {s : State} {p : Side} {e : Endpoint} {data : List UInt8} {info : RdmaQpInfo}
      {offset : ℕ} (h : s.endpoint p = e) (hpc : e.pc = .decodeInfo)
      (hdata : e.recvBuffer = some data)
      (hok : (decodeQpInfo (host p).order data).run 0 = .ok (info, offset)) :
      Step host s (p, .advance) (s.set p { e with remote := info, pc := .modifyQPToRTR })
  | modifyQPToRTR {s : State} {p : Side} {e : Endpoint} {qp qp' : Qp} (h : s.endpoint p = e)
      (hpc : e.pc = .modifyQPToRTR) (hqp : e.qp = some qp)
      (hok : modifyQPToRTR (host p) e.localGidIndex e.remote qp = some qp') :
      Step host s (p, .advance) (s.set p { e with qp := some qp', pc := .modifyQPToRTS })
  | modifyQPToRTS {s : State} {p : Side} {e : Endpoint} {qp qp' : Qp} (h : s.endpoint p = e)
      (hpc : e.pc = .modifyQPToRTS) (hqp : e.qp = some qp) (hok : modifyQPToRTS qp = some qp') :
      Step host s (p, .advance) (s.set p { e with qp := some qp', pc := .afterRTS (host p) })
  | postRecvWR {s : State} {p : Side} {e : Endpoint} {i : ℕ} {qp qp' : Qp}
      (h : s.endpoint p = e) (hpc : e.pc = .postRecvWRs i) (hi : i < (host p).bufferCount)
      (hqp : e.qp = some qp) (hok : postRecv i qp = some qp') :
      Step host s (p, .advance) (s.set p { e with qp := some qp', pc := .postRecvWRs (i + 1) })
  | postedRecvWRs {s : State} {p : Side} {e : Endpoint} {i : ℕ} (h : s.endpoint p = e)
      (hpc : e.pc = .postRecvWRs i) (hi : ¬ i < (host p).bufferCount) :
      Step host s (p, .advance) (s.set p { e with pc := .returned true })
  -- nobody listens
  | refused {s : State} {e : Endpoint} (h : s.endpoint .connecting = e)
      (hpc : e.pc = .createSocket) (hlisten : s.listening = false) :
      Step host s (.connecting, .endOfStream) (s.giveUp .connecting)
  | endOfStream {s : State} {p : Side} {e : Endpoint} (h : s.endpoint p = e)
      (hpc : e.pc = .recvInfo) (hrecv : Utils.recvAll (s.wire p.peer) = none) (hend : s.Ended p) :
      Step host s (p, .endOfStream) (s.giveUp p)
  | fault {s : State} {p : Side} {e : Endpoint} (h : s.endpoint p = e)
      (hpc : ∀ ok, e.pc ≠ .returned ok) (hsend : e.pc ≠ .sendInfo) :
      Step host s (p, .fault) (s.giveUp p)
  -- a part of the frame has been sent
  | sendFault {s : State} {p : Side} {e : Endpoint} {n : ℕ} (h : s.endpoint p = e)
      (hpc : e.pc = .sendInfo) (hn : n < (host p).frame.length) :
      Step host s (p, .fault)
        { s.giveUp p with
          wire := Function.update s.wire p (s.wire p ++ (host p).frame.take n) }

/-! ### Where a side is -/

/-- How far a side has come: before the TCP connection, before its first and its second
transfer of QP info, after them, or it has given up. -/
inductive Stage
  | start
  | ready
  | half
  | exchanged
  | gone
  deriving DecidableEq, Repr

namespace Stage

def Sent : Side → Stage → Prop
  | _, exchanged => True
  | .connecting, half => True
  | _, _ => False

def Received : Side → Stage → Prop
  | _, exchanged => True
  | .accepting, half => True
  | _, _ => False

instance (p : Side) (x : Stage) : Decidable (Sent p x) := by
  cases p <;> cases x <;> unfold Sent <;> infer_instance

instance (p : Side) (x : Stage) : Decidable (Received p x) := by
  cases p <;> cases x <;> unfold Received <;> infer_instance

end Stage

namespace Pc

def stage : Side → Pc → Stage
  | _, initRdmaResources => .start
  | _, createSocket => .start
  | _, modifyQPToInit => .ready
  | _, prepareInfo => .ready
  | .connecting, sendInfo => .ready
  | .connecting, recvInfo => .half
  | .accepting, recvInfo => .ready
  | .accepting, sendInfo => .half
  | _, decodeInfo => .exchanged
  | _, modifyQPToRTR => .exchanged
  | _, modifyQPToRTS => .exchanged
  | _, postRecvWRs _ => .exchanged
  | _, returned true => .exchanged
  | _, returned false => .gone

/-- `local_gid_index` has been chosen. -/
def Prepared : Pc → Prop
  | initRdmaResources => False
  | createSocket => False
  | modifyQPToInit => False
  | prepareInfo => False
  | returned ok => ok = true
  | _ => True

/-- The info of the other side has been saved. -/
def Decoded : Pc → Prop
  | modifyQPToRTR => True
  | modifyQPToRTS => True
  | postRecvWRs _ => True
  | returned ok => ok = true
  | _ => False

instance (pc : Pc) : Decidable pc.Prepared := by
  cases pc <;> unfold Prepared <;> infer_instance

instance (pc : Pc) : Decidable pc.Decoded := by
  cases pc <;> unfold Decoded <;> infer_instance

end Pc

theorem Pc.eq_of_gone {p : Side} {pc : Pc} (h : pc.stage p = .gone) : pc = .returned false := by
  cases p <;> cases pc with
  | returned ok => cases ok <;> first | rfl | cases h
  | _ => cases h

section Expected

variable (host : Side → Host) (p : Side)

/-- The QP info of the other side, as side `p` sees it. -/
def remoteInfo : RdmaQpInfo :=
  (host p.peer).qpInfo.seen (host p.peer).order (host p).order

/-- The queue pair after `ModifyQPToRTR`. -/
def receiving : Qp where
  state := .rtr
  destQpNum := (remoteInfo host p).qpn
  ahAttr := match (host p).linkLayer with
    | .ethernet => ⟨(remoteInfo host p).lid, true, (remoteInfo host p).gid,
        (findBestGidIndex (host p).queryGid).1, 255⟩
    | .infiniband => ⟨(remoteInfo host p).lid, false, Gid.zero, 0, 0⟩
  pathMtu := 4096
  rqPsn := 0
  sqPsn := 0
  maxDestRdAtomic := 1
  maxRdAtomic := 0
  minRnrTimer := 12
  timeout := 0
  retryCnt := 0
  rnrRetry := 0
  posted := []

/-- The queue pair after `ModifyQPToRTS`, with receive WRs for the buffers `posted`. -/
def ready (posted : List ℕ) : Qp :=
  { receiving host p with
    state := .rts, timeout := 14, retryCnt := 7, rnrRetry := 7, maxRdAtomic := 1, posted := posted }

/-- The receive WRs of a connected transport. -/
def poolWRs : List ℕ :=
  if (host p).enableZeroCopy then [] else List.range (host p).bufferCount

def expectedQp : Pc → Option Qp
  | .initRdmaResources => none
  | .createSocket => some .created
  | .modifyQPToInit => some .created
  | .prepareInfo => some { Qp.created with state := .init }
  | .sendInfo => some { Qp.created with state := .init }
  | .recvInfo => some { Qp.created with state := .init }
  | .decodeInfo => some { Qp.created with state := .init }
  | .modifyQPToRTR => some { Qp.created with state := .init }
  | .modifyQPToRTS => some (receiving host p)
  | .postRecvWRs i => some (ready host p (List.range i))
  | .returned true => some (ready host p (poolWRs host p))
  | .returned false => none

/-- All that a side has, when it is at `pc`. -/
def expected (pc : Pc) : Endpoint where
  pc := pc
  qp := expectedQp host p pc
  localGidIndex := if pc.Prepared then (findBestGidIndex (host p).queryGid).1 else 0
  recvBuffer :=
    if (pc.stage p).Received p then
      some (encodeQpInfo (host p.peer).order (host p.peer).qpInfo [])
    else none
  remote := if pc.Decoded then remoteInfo host p else ⟨0, 0, Gid.zero, 0⟩
  sockOpen := pc.stage p ≠ .start ∧ pc.stage p ≠ .gone

theorem expected_start : expected host p .initRdmaResources = .start := by cases p <;> rfl

theorem expected_closed : expected host p (.returned false) = .closed := by cases p <;> rfl

end Expected

/-! ### The wires -/

/-- The sides are at the stages `stage`, and the wires hold what that allows. -/
structure Wired (host : Side → Host) (stage : Side → Stage) (wire : Side → List UInt8)
    (listening established : Bool) : Prop where
  part : ∀ p, wire p <+: (host p).frame
  whole : ∀ p, (stage p).Sent p → stage p.peer ≠ .gone → ¬ (stage p.peer).Received p.peer →
    wire p = (host p).frame
  empty : ∀ p, ¬ (stage p).Sent p → stage p ≠ .gone → wire p = []
  received : ∀ p, (stage p).Received p → (stage p.peer).Sent p.peer ∨ stage p.peer = .gone
  joined : ∀ p, stage p ≠ .start → stage p ≠ .gone → established = true
  connected : established = true → stage .connecting ≠ .start
  unlistened : listening = false → stage .accepting = .gone
  silent : stage .accepting = .gone → listening = true → wire .accepting = []

namespace Wired

variable {host : Side → Host} {stage : Side → Stage} {wire : Side → List UInt8}
  {listening established : Bool} (h : Wired host stage wire listening established)
include h

theorem connect (hstart : stage .connecting = .start) :
    Wired host (Function.update stage .connecting .ready) wire listening true where
  part := h.part
  whole p := by
    have := h.whole p
    cases p <;> simp_all [Stage.Sent, Stage.Received, Side.peer, Function.update]
  empty p := by
    have := h.empty p
    cases p <;> simp_all [Stage.Sent, Function.update]
  received p := by
    have := h.received p
    cases p <;> simp_all [Stage.Sent, Stage.Received, Side.peer, Function.update]
  joined _ _ _ := rfl
  connected _ := by simp [Function.update]
  unlistened hl := by simpa [Function.update] using h.unlistened hl
  silent hg hl := h.silent (by simpa [Function.update] using hg) hl

theorem accept (hstart : stage .accepting = .start) (hconn : established = true) :
    Wired host (Function.update stage .accepting .ready) wire listening established where
  part := h.part
  whole p := by
    have := h.whole p
    cases p <;> simp_all [Stage.Sent, Stage.Received, Side.peer, Function.update]
  empty p := by
    have := h.empty p
    cases p <;> simp_all [Stage.Sent, Function.update]
  received p := by
    have := h.received p
    cases p <;> simp_all [Stage.Sent, Stage.Received, Side.peer, Function.update]
  joined _ _ _ := hconn
  connected hc := by simpa [Function.update] using h.connected hc
  unlistened hl := absurd (h.unlistened hl) (by rw [hstart]; exact Stage.noConfusion)
  silent hg _ := by simp [Function.update] at hg

theorem send {p : Side} (hbefore : stage p = Pc.stage p .sendInfo) :
    Wired host (Function.update stage p (Pc.stage p (.afterSend p)))
      (Function.update wire p (wire p ++ (host p).frame)) listening established := by
  have hempty : wire p = [] := by
    refine h.empty p ?_ ?_
    · rw [hbefore]; cases p <;> exact id
    · rw [hbefore]; cases p <;> exact Stage.noConfusion
  rw [hempty, List.nil_append]
  refine ⟨fun q => ?_, fun q => ?_, fun q => ?_, fun q => ?_, fun q => ?_, fun hc => ?_,
    fun hl => ?_, fun hg hl => ?_⟩
  · have := h.part q
    by_cases hq : q = p
    · subst hq
      rw [Function.update_self]
    · rwa [Function.update_of_ne hq]
  · have := h.whole q
    cases p <;> cases q <;>
      simp_all [Pc.stage, Pc.afterSend, Stage.Sent, Stage.Received, Side.peer, Function.update]
  · have := h.empty q
    cases p <;> cases q <;>
      simp_all [Pc.stage, Pc.afterSend, Stage.Sent, Function.update]
  · have := h.received q
    cases p <;> cases q <;>
      simp_all [Pc.stage, Pc.afterSend, Stage.Sent, Stage.Received, Side.peer, Function.update]
  · have := h.joined q
    cases p <;> cases q <;> simp_all [Pc.stage, Pc.afterSend, Function.update]
  · have := h.connected hc
    cases p <;> simp_all [Pc.stage, Pc.afterSend, Function.update]
  · have := h.unlistened hl
    cases p <;> simp_all [Pc.stage, Function.update]
  · have := h.silent
    cases p <;> simp_all [Pc.stage, Pc.afterSend, Function.update]

/-- A frame on the wire is the whole frame of its sender. -/
theorem of_recvAll {p : Side} {data rest : List UInt8}
    (hrecv : Utils.recvAll (wire p) = some (data, rest)) :
    wire p = (host p).frame ∧ data = encodeQpInfo (host p).order (host p).qpInfo [] ∧
      rest = [] := by
  obtain ⟨bs, hbs⟩ := h.part p
  have happend := Framing.recvAll_append bs hrecv
  rw [hbs, Host.recvAll_frame] at happend
  obtain ⟨hdata, hsplit⟩ := Prod.mk.inj (Option.some.inj happend)
  obtain ⟨hrest, hnil⟩ := List.append_eq_nil_iff.mp hsplit.symm
  rw [hnil, List.append_nil] at hbs
  exact ⟨hbs, hdata.symm, hrest⟩

theorem recv {p : Side} (hbefore : stage p = Pc.stage p .recvInfo)
    (hwire : wire p.peer = (host p.peer).frame) :
    Wired host (Function.update stage p (Pc.stage p (.afterRecv p)))
      (Function.update wire p.peer []) listening established := by
  have hsent : (stage p.peer).Sent p.peer ∨ stage p.peer = .gone := by
    by_contra hno
    obtain ⟨hunsent, hstays⟩ := not_or.mp hno
    have hnil := h.empty p.peer hunsent hstays
    exact (host p.peer).frame_ne_nil (hwire.symm.trans hnil)
  refine ⟨fun q => ?_, fun q => ?_, fun q => ?_, fun q => ?_, fun q => ?_, fun hc => ?_,
    fun hl => ?_, fun hg hl => ?_⟩
  · have := h.part q
    by_cases hq : q = p.peer
    · subst hq
      rw [Function.update_self]
      exact List.nil_prefix
    · rwa [Function.update_of_ne hq]
  · have := h.whole q
    cases p <;> cases q <;>
      simp_all [Pc.stage, Pc.afterRecv, Stage.Sent, Stage.Received, Side.peer, Function.update]
  · have := h.empty q
    cases p <;> cases q <;>
      simp_all [Pc.stage, Pc.afterRecv, Stage.Sent, Side.peer, Function.update]
  · have := h.received q
    cases p <;> cases q <;>
      simp_all [Pc.stage, Pc.afterRecv, Stage.Sent, Stage.Received, Side.peer, Function.update]
  · have := h.joined q
    cases p <;> cases q <;> simp_all [Pc.stage, Pc.afterRecv, Function.update]
  · have := h.connected hc
    cases p <;> simp_all [Pc.stage, Pc.afterRecv, Function.update]
  · have := h.unlistened hl
    cases p <;> simp_all [Pc.stage, Function.update]
  · have := h.silent
    cases p <;> simp_all [Pc.stage, Pc.afterRecv, Side.peer, Function.update]

/-- Side `p` gives up, after it may have sent a part of its frame. -/
theorem giveUp {p : Side} {wire' : Side → List UInt8} {listening' : Bool}
    (hpart : wire' p <+: (host p).frame) (hothers : wire' p.peer = wire p.peer)
    (hlisten : listening' = false → listening = false ∨ p = .accepting)
    (hsilent : listening' = true → listening = true ∧ (p = .accepting → wire' p = [])) :
    Wired host (Function.update stage p .gone) wire' listening' established := by
  refine ⟨fun q => ?_, fun q => ?_, fun q => ?_, fun q => ?_, fun q => ?_, fun hc => ?_,
    fun hl => ?_, fun hg hl => ?_⟩
  · rcases Side.eq_or_eq_peer p q with rfl | rfl
    · exact hpart
    · rw [hothers]
      exact h.part _
  · have := h.whole q
    cases p <;> cases q <;>
      simp_all [Stage.Sent, Stage.Received, Side.peer, Function.update]
  · have := h.empty q
    cases p <;> cases q <;> simp_all [Stage.Sent, Side.peer, Function.update]
  · have := h.received q
    cases p <;> cases q <;>
      simp_all [Stage.Sent, Stage.Received, Side.peer, Function.update]
  · have := h.joined q
    cases p <;> cases q <;> simp_all [Function.update]
  · have := h.connected hc
    cases p <;> simp_all [Function.update]
  · have := h.unlistened
    have := hlisten hl
    cases p <;> simp_all [Function.update]
  · have := h.silent
    obtain ⟨hopen, hnone⟩ := hsilent hl
    cases p with
    | accepting => exact hnone rfl
    | connecting => exact hothers.trans (this hg hopen)

end Wired

/-! ### Invariants -/

/-- Every side has what is expected where it is, and so have the wires. -/
structure Inv (host : Side → Host) (s : State) : Prop where
  endpoint : ∀ p, s.endpoint p = expected host p (s.endpoint p).pc
  posted : ∀ p i, (s.endpoint p).pc = .postRecvWRs i →
    (host p).enableZeroCopy = false ∧ i ≤ (host p).bufferCount
  wired : Wired host (fun p => (s.endpoint p).pc.stage p) s.wire s.listening s.established

variable {host : Side → Host} {s t : State}

theorem Inv.init : Inv host State.init where
  endpoint p := (expected_start host p).symm
  posted p i h := by cases h
  wired := by
    refine ⟨fun p => List.nil_prefix, fun p => ?_, fun p _ _ => rfl, fun p => ?_, fun p => ?_,
      fun hc => ?_, fun hl => ?_, fun _ _ => rfl⟩
    · cases p <;> exact False.elim
    · cases p <;> exact False.elim
    · cases p <;> exact fun h => absurd rfl h
    · cases hc
    · cases hl

theorem stage_set (s : State) (p : Side) (e : Endpoint) :
    (fun q => ((s.set p e).endpoint q).pc.stage q)
      = Function.update (fun q => (s.endpoint q).pc.stage q) p (e.pc.stage p) := by
  funext q
  by_cases hq : q = p
  · subst hq
    simp [State.set]
  · simp [State.set, hq]

/-- Side `p` moves to another place. -/
theorem Inv.move (h : Inv host s) {p : Side} {e : Endpoint} (he : e = expected host p e.pc)
    (hposted : ∀ i, e.pc = .postRecvWRs i →
      (host p).enableZeroCopy = false ∧ i ≤ (host p).bufferCount)
    {wire : Side → List UInt8} {listening established : Bool}
    (hwired : Wired host (Function.update (fun q => (s.endpoint q).pc.stage q) p (e.pc.stage p))
      wire listening established) :
    Inv host { s.set p e with wire := wire, listening := listening, established := established }
    where
  endpoint q := by
    by_cases hq : q = p
    · subst hq
      simpa [State.set] using he
    · simpa [State.set, hq] using h.endpoint q
  posted q i := by
    by_cases hq : q = p
    · subst hq
      simpa [State.set] using hposted i
    · simpa [State.set, hq] using h.posted q i
  wired := by
    rw [← stage_set] at hwired
    exact hwired

/-- Side `p` goes on without the other side. -/
theorem Inv.quiet (h : Inv host s) {p : Side} {e : Endpoint} (he : e = expected host p e.pc)
    (hposted : ∀ i, e.pc = .postRecvWRs i →
      (host p).enableZeroCopy = false ∧ i ≤ (host p).bufferCount)
    (hstage : e.pc.stage p = (s.endpoint p).pc.stage p) : Inv host (s.set p e) := by
  refine h.move he hposted ?_
  rw [hstage, Function.update_eq_self]
  exact h.wired

/-- Side `p` gives up, with a part of its frame on the wire. -/
theorem Inv.giveUp (h : Inv host s) {p : Side} {wire : Side → List UInt8}
    (hpart : wire p <+: (host p).frame) (hothers : wire p.peer = s.wire p.peer)
    (hsilent : (s.endpoint p).pc = .initRdmaResources → wire p = s.wire p) :
    Inv host { s.giveUp p with wire := wire } := by
  have hclosed : Endpoint.closed.pc.stage p = .gone := by cases p <;> rfl
  refine h.move (e := .closed) (expected_closed host p).symm nofun ?_
  rw [hclosed]
  refine h.wired.giveUp hpart hothers (fun hl => ?_) fun hl => ?_
  · cases p with
    | accepting => exact .inr rfl
    | connecting => exact .inl (by simpa [State.giveUp] using hl)
  · have hl : s.listening = true ∧
        (p = .connecting ∨ (s.endpoint .accepting).pc = .initRdmaResources) := by
      simpa [State.giveUp] using hl
    refine ⟨hl.1, ?_⟩
    rintro rfl
    have hinit := hl.2.resolve_left Side.noConfusion
    rw [hsilent hinit]
    refine h.wired.empty .accepting ?_ ?_
    all_goals
      show ¬ _
      rw [hinit]
      first | exact id | exact Stage.noConfusion

/-- A side that is about to send has sent nothing. -/
theorem Inv.wire_of_sendInfo (h : Inv host s) {p : Side} (hpc : (s.endpoint p).pc = .sendInfo) :
    s.wire p = [] := by
  refine h.wired.empty p ?_ ?_
  all_goals
    show ¬ _
    rw [hpc]
    cases p <;> first | exact id | exact Stage.noConfusion

/-- **Every step keeps the invariant.** -/
theorem Inv.step {a : Side × Action} (h : Inv host s) (hstep : Step host s a t) : Inv host t := by
  have hat : ∀ {p e pc}, s.endpoint p = e → e.pc = pc → e = expected host p pc := by
    rintro p e pc rfl rfl
    exact h.endpoint p
  cases hstep with
  | @initRdmaResources _ p e he hpc =>
      obtain rfl := hat he hpc
      refine h.quiet ?_ nofun ?_
      · cases p <;> rfl
      · rw [he]
        cases p <;> rfl
  | @connect _ e he hpc hlisten =>
      obtain rfl := hat he hpc
      refine h.move rfl (by nofun) (h.wired.connect ?_)
      show (s.endpoint .connecting).pc.stage .connecting = .start
      rw [he]
      rfl
  | @accept _ e he hpc hconn =>
      obtain rfl := hat he hpc
      refine h.move rfl (by nofun) (h.wired.accept ?_ hconn)
      show (s.endpoint .accepting).pc.stage .accepting = .start
      rw [he]
      rfl
  | @modifyQPToInit _ p e qp qp' he hpc hqp hok =>
      obtain rfl := hat he hpc
      obtain rfl := Option.some.inj hqp
      obtain rfl := Option.some.inj hok
      refine h.quiet ?_ nofun ?_
      · cases p <;> rfl
      · rw [he]
        cases p <;> rfl
  | @prepareInfo _ p e he hpc =>
      obtain rfl := hat he hpc
      refine h.quiet ?_ (by cases p <;> nofun) ?_
      · cases p <;> rfl
      · rw [he]
        cases p <;> rfl
  | @sendInfo _ p e he hpc =>
      obtain rfl := hat he hpc
      refine h.move ?_ (by cases p <;> nofun) (h.wired.send ?_)
      · cases p <;> rfl
      · show (s.endpoint p).pc.stage p = _
        rw [he]
        rfl
  | @recvInfo _ p e data rest he hpc hrecv =>
      obtain rfl := hat he hpc
      obtain ⟨hwire, rfl, rfl⟩ := h.wired.of_recvAll hrecv
      refine h.move ?_ (by cases p <;> nofun) (h.wired.recv ?_ hwire)
      · cases p <;> rfl
      · show (s.endpoint p).pc.stage p = _
        rw [he]
        rfl
  | @decodeInfo _ p e data info offset he hpc hdata hok =>
      obtain rfl := hat he hpc
      have hbuffer : (expected host p .decodeInfo).recvBuffer
          = some (encodeQpInfo (host p.peer).order (host p.peer).qpInfo []) := by
        cases p <;> rfl
      obtain rfl := Option.some.inj (hbuffer.symm.trans hdata)
      have hdecodes := decodes_qpInfo (host p.peer).order (host p).order (host p.peer).qpInfo [] []
      rw [List.nil_append, List.append_nil] at hdecodes
      obtain ⟨rfl, -⟩ := Prod.mk.inj (Except.ok.inj (hdecodes.symm.trans hok))
      refine h.quiet ?_ nofun ?_
      · cases p <;> rfl
      · rw [he]
        cases p <;> rfl
  | @modifyQPToRTR _ p e qp qp' he hpc hqp hok =>
      obtain rfl := hat he hpc
      obtain rfl := Option.some.inj hqp
      obtain rfl := Option.some.inj hok
      refine h.quiet ?_ nofun ?_
      · cases p <;> rfl
      · rw [he]
        cases p <;> rfl
  | @modifyQPToRTS _ p e qp qp' he hpc hqp hok =>
      obtain rfl := hat he hpc
      obtain rfl := Option.some.inj hqp
      obtain rfl := Option.some.inj hok
      unfold Pc.afterRTS
      cases hzero : (host p).enableZeroCopy with
      | true =>
          refine h.quiet ?_ nofun ?_
          · have hpool : poolWRs host p = [] := if_pos hzero
            simp only [if_true, expected, expectedQp, hpool]
            cases p <;> rfl
          · rw [he]
            cases p <;> rfl
      | false =>
          refine h.quiet ?_ ?_ ?_
          · cases p <;> rfl
          · rintro i hi
            obtain rfl : 0 = i := Pc.postRecvWRs.inj hi
            exact ⟨hzero, Nat.zero_le _⟩
          · rw [he]
            cases p <;> rfl
  | @postRecvWR _ p e i qp qp' he hpc hi hqp hok =>
      have hposted := h.posted p i (by rw [he]; exact hpc)
      obtain rfl := hat he hpc
      obtain rfl := Option.some.inj hqp
      obtain ⟨-, hpost⟩ := Option.ite_none_right_eq_some.mp hok
      obtain rfl := Option.some.inj hpost
      refine h.quiet ?_ ?_ ?_
      · simp only [expected, expectedQp, List.range_succ]
        cases p <;> rfl
      · rintro j hj
        obtain rfl : i + 1 = j := Pc.postRecvWRs.inj hj
        exact ⟨hposted.1, hi⟩
      · rw [he]
        cases p <;> rfl
  | @postedRecvWRs _ p e i he hpc hi =>
      obtain ⟨hzero, hle⟩ := h.posted p i (by rw [he]; exact hpc)
      obtain rfl := hat he hpc
      obtain rfl : i = (host p).bufferCount := by omega
      refine h.quiet ?_ nofun ?_
      · have hpool : poolWRs host p = List.range (host p).bufferCount := if_neg (by simp [hzero])
        simp only [expected, expectedQp, hpool]
        cases p <;> rfl
      · rw [he]
        cases p <;> rfl
  | refused he hpc hlisten => exact h.giveUp (h.wired.part _) rfl fun _ => rfl
  | endOfStream he hpc hrecv hend => exact h.giveUp (h.wired.part _) rfl fun _ => rfl
  | fault he hpc hsend => exact h.giveUp (h.wired.part _) rfl fun _ => rfl
  | @sendFault _ p e n he hpc hn =>
      have hempty := h.wire_of_sendInfo (he ▸ hpc)
      refine h.giveUp ?_ (Function.update_of_ne (Side.peer_ne p) _ _) fun hinit => ?_
      swap
      · rw [he, hpc] at hinit
        cases hinit
      rw [Function.update_self, hempty]
      exact List.take_prefix _ _

theorem inv_of_reaches (h : (Step host).Reaches State.init s) : Inv host s := by
  induction h with
  | refl => exact .init
  | tail _ hstep ih =>
      obtain ⟨a, hstep⟩ := hstep
      exact ih.step hstep

/-! ### Going on -/

/-- Two hosts with the default buffer pool. -/
def twoHosts : Side → Host
  | .connecting => ⟨.little, 17, 1, .ethernet, fun _ => none, false, 16⟩
  | .accepting => ⟨.little, 42, 2, .ethernet, fun _ => none, false, 16⟩

theorem bufferCount_twoHosts (p : Side) : (twoHosts p).bufferCount ≤ maxRecvWr := by
  cases p <;> exact le_rfl

/-- A call that does not wait for the other side goes on. -/
theorem Inv.exists_advance (h : Inv host s) (hcount : ∀ p, (host p).bufferCount ≤ maxRecvWr)
    {p : Side} (hpc : ∀ ok, (s.endpoint p).pc ≠ .returned ok)
    (hsock : (s.endpoint p).pc ≠ .createSocket) (hrecv : (s.endpoint p).pc ≠ .recvInfo) :
    ∃ t, Step host s (p, .advance) t := by
  have hexp := h.endpoint p
  have hposted := h.posted p
  cases hat : (s.endpoint p).pc with
  | createSocket => exact absurd hat hsock
  | recvInfo => exact absurd hat hrecv
  | returned ok => exact absurd hat (hpc ok)
  | initRdmaResources => exact ⟨_, .initRdmaResources rfl hat⟩
  | prepareInfo => exact ⟨_, .prepareInfo rfl hat⟩
  | sendInfo => exact ⟨_, .sendInfo rfl hat⟩
  | modifyQPToInit =>
      have hqp : (s.endpoint p).qp = some .created := by
        rw [hexp, hat]
        rfl
      exact ⟨_, .modifyQPToInit rfl hat hqp rfl⟩
  | decodeInfo =>
      have hdata : (s.endpoint p).recvBuffer
          = some (encodeQpInfo (host p.peer).order (host p.peer).qpInfo []) := by
        rw [hexp, hat]
        cases p <;> rfl
      have hdecodes := decodes_qpInfo (host p.peer).order (host p).order (host p.peer).qpInfo [] []
      rw [List.nil_append, List.append_nil] at hdecodes
      exact ⟨_, .decodeInfo rfl hat hdata hdecodes⟩
  | modifyQPToRTR =>
      have hqp : (s.endpoint p).qp = some { Qp.created with state := .init } := by
        rw [hexp, hat]
        rfl
      exact ⟨_, .modifyQPToRTR rfl hat hqp rfl⟩
  | modifyQPToRTS =>
      have hqp : (s.endpoint p).qp = some (receiving host p) := by
        rw [hexp, hat]
        rfl
      exact ⟨_, .modifyQPToRTS rfl hat hqp rfl⟩
  | postRecvWRs i =>
      by_cases hi : i < (host p).bufferCount
      · have hqp : (s.endpoint p).qp = some (ready host p (List.range i)) := by
          rw [hexp, hat]
          rfl
        have hroom : (List.range i).length < maxRecvWr := by
          rw [List.length_range]
          exact Nat.lt_of_lt_of_le hi (hcount p)
        exact ⟨_, .postRecvWR rfl hat hi hqp (if_pos ⟨QpState.noConfusion, hroom⟩)⟩
      · exact ⟨_, .postedRecvWRs rfl hat hi⟩

/-- One side waits for the other, which has returned and will not let it go on: it has given
up before the connection was made, or its `InitRdmaResources` has failed while the listening
socket stays open. -/
def State.Abandoned (s : State) : Prop :=
  (s.endpoint .accepting).pc = .createSocket ∧ s.established = false ∧
      (s.endpoint .connecting).pc = .returned false ∨
    (s.endpoint .connecting).pc = .recvInfo ∧ s.listening = true ∧
      (s.endpoint .accepting).pc = .returned false

/-- A side that waits for QP info gets it, or the end of the stream, once the other side has
sent it or has closed its end. -/
theorem Inv.exists_recv (h : Inv host s) {p : Side} (hpc : (s.endpoint p).pc = .recvInfo)
    (hpeer : ((s.endpoint p.peer).pc.stage p.peer).Sent p.peer ∨ s.Ended p) :
    ∃ a t, a ≠ .fault ∧ Step host s (p, a) t := by
  cases hrecv : Utils.recvAll (s.wire p.peer) with
  | some r => exact ⟨_, _, Action.noConfusion, .recvInfo rfl hpc hrecv⟩
  | none =>
      rcases hpeer with hsent | hended
      · have hwire := h.wired.whole p.peer hsent
        rw [Side.peer_peer, hpc] at hwire
        have hwaits : s.wire p.peer = (host p.peer).frame := by
          cases p <;> exact hwire Stage.noConfusion id
        rw [hwaits, Host.recvAll_frame] at hrecv
        cases hrecv
      · exact ⟨_, _, Action.noConfusion, .endOfStream rfl hpc hrecv hended⟩

/-- A side that has returned takes no more steps. -/
theorem Step.not_returned {p : Side} {a : Action} (hstep : Step host s (p, a) t) (ok : Bool) :
    (s.endpoint p).pc ≠ .returned ok := by
  intro hret
  cases hstep with
  | fault he hpc _ => exact hpc ok (he ▸ hret)
  | _ => simp_all

theorem Inv.abandoned_of_stuck (h : Inv host s) (hcount : ∀ p, (host p).bufferCount ≤ maxRecvWr)
    (hstuck : ∀ p a t, a ≠ .fault → ¬ Step host s (p, a) t) :
    (∀ p, ∃ ok, (s.endpoint p).pc = .returned ok) ∨ s.Abandoned := by
  have hwaits : ∀ p, (∃ ok, (s.endpoint p).pc = .returned ok) ∨
      (s.endpoint p).pc = .createSocket ∨ (s.endpoint p).pc = .recvInfo := by
    intro p
    by_contra hno
    simp only [not_or, not_exists] at hno
    obtain ⟨t, ht⟩ := h.exists_advance hcount hno.1 hno.2.1 hno.2.2
    exact hstuck p .advance t Action.noConfusion ht
  have hrecv : ∀ p, (s.endpoint p).pc = .recvInfo →
      ¬ (((s.endpoint p.peer).pc.stage p.peer).Sent p.peer ∨ s.Ended p) := by
    intro p hpc hpeer
    obtain ⟨a, t, ha, ht⟩ := h.exists_recv hpc hpeer
    exact hstuck p a t ha ht
  have hconnecting : (s.endpoint .connecting).pc ≠ .createSocket := by
    intro hpc
    cases hlisten : s.listening with
    | true => exact hstuck _ _ _ Action.noConfusion (.connect rfl hpc hlisten)
    | false => exact hstuck _ _ _ Action.noConfusion (.refused rfl hpc hlisten)
  have haccepting : (s.endpoint .accepting).pc = .createSocket → s.established = false := by
    intro hpc
    by_contra hconn
    exact hstuck _ _ _ Action.noConfusion (.accept rfl hpc (by simpa using hconn))
  have hjoined := h.wired.joined .connecting
  rcases hwaits .connecting with ⟨ok, hc⟩ | hc | hc
  · rcases hwaits .accepting with ha | ha | ha
    · refine .inl fun p => ?_
      cases p with
      | connecting => exact ⟨ok, hc⟩
      | accepting => exact ha
    · refine .inr (.inl ⟨ha, haccepting ha, ?_⟩)
      cases ok with
      | false => exact hc
      | true =>
          rw [hc] at hjoined
          have hconn := hjoined Stage.noConfusion Stage.noConfusion
          rw [haccepting ha] at hconn
          cases hconn
    · refine absurd ?_ (hrecv .accepting ha)
      cases ok with
      | true =>
          refine .inl ?_
          show ((s.endpoint .connecting).pc.stage .connecting).Sent .connecting
          rw [hc]
          trivial
      | false =>
          refine .inr ?_
          show (s.endpoint .connecting).sockOpen = false
          rw [h.endpoint .connecting, hc]
          rfl
  · exact absurd hc hconnecting
  · -- the connecting side has sent its info
    have hsent : ((s.endpoint .connecting).pc.stage .connecting).Sent .connecting := by
      rw [hc]
      trivial
    rcases hwaits .accepting with ⟨ok, ha⟩ | ha | ha
    · cases ok with
      | true =>
          refine absurd (.inl ?_) (hrecv .connecting hc)
          show ((s.endpoint .accepting).pc.stage .accepting).Sent .accepting
          rw [ha]
          trivial
      | false =>
          refine .inr (.inr ⟨hc, ?_, ha⟩)
          by_contra hlisten
          have hclosed : s.Ended .connecting := eq_false_of_ne_true hlisten
          exact hrecv .connecting hc (.inr hclosed)
    · rw [hc] at hjoined
      have hconn := hjoined Stage.noConfusion Stage.noConfusion
      rw [haccepting ha] at hconn
      cases hconn
    · exact absurd (.inl hsent) (hrecv .accepting ha)

/-- A side that has been abandoned waits forever. -/
theorem Inv.stuck_of_abandoned (h : Inv host s) (habandoned : s.Abandoned) {p : Side} {a : Action}
    (ha : a ≠ .fault) : ¬ Step host s (p, a) t := by
  intro hstep
  rcases habandoned with ⟨hacc, hconn, hret⟩ | ⟨hpc, hlisten, hret⟩
  · cases p with
    | connecting => exact hstep.not_returned false hret
    | accepting => cases hstep <;> simp_all
  · cases p with
    | accepting => exact hstep.not_returned false hret
    | connecting =>
        have hsilent : s.wire .accepting = [] := by
          refine h.wired.silent ?_ hlisten
          show (s.endpoint .accepting).pc.stage .accepting = .gone
          rw [hret]
          rfl
        cases hstep with
        | recvInfo _ _ hrecv =>
            rw [Side.peer, hsilent] at hrecv
            cases hrecv
        | endOfStream _ _ _ hend =>
            rw [State.Ended, hlisten] at hend
            cases hend
        | _ => simp_all

/-- **While both have not returned, one of the two can go on**, unless it has been
abandoned; a side that has been abandoned waits forever. -/
theorem handshake_progress (hcount : ∀ p, (host p).bufferCount ≤ maxRecvWr)
    (hs : (Step host).Reaches State.init s) :
    (∀ p a t, a ≠ .fault → ¬ Step host s (p, a) t) ↔
      (∀ p, ∃ ok, (s.endpoint p).pc = .returned ok) ∨ s.Abandoned := by
  have h := inv_of_reaches hs
  constructor
  · exact h.abandoned_of_stuck hcount
  · rintro (hret | habandoned) p a t ha hstep
    · obtain ⟨ok, hok⟩ := hret p
      exact hstep.not_returned ok hok
    · exact h.stuck_of_abandoned habandoned ha hstep

/-- The connecting side fails at once; the accepting side waits for it in `accept`. -/
theorem handshake_progress_two : ∃ s, (Step twoHosts).Reaches State.init s ∧
    (s.endpoint .accepting).pc = .createSocket ∧
      ∀ p a t, a ≠ .fault → ¬ Step twoHosts s (p, a) t := by
  have hfault : Step twoHosts State.init (.connecting, .fault) (State.init.giveUp .connecting) :=
    .fault rfl nofun nofun
  have hinit : Step twoHosts (State.init.giveUp .connecting) (.accepting, .advance) _ :=
    .initRdmaResources rfl rfl
  have hreaches : (Step twoHosts).Reaches State.init _ :=
    .tail (.single ⟨_, hfault⟩) ⟨_, hinit⟩
  refine ⟨_, hreaches, rfl, ?_⟩
  exact (handshake_progress bufferCount_twoHosts hreaches).mpr (.inr (.inl ⟨rfl, rfl, rfl⟩))

/-! ### Ending -/

/-- How many steps a side has before it. -/
def Pc.left (bufferCount : ℕ) : Side → Pc → ℕ
  | _, initRdmaResources => bufferCount + 10
  | _, createSocket => bufferCount + 9
  | _, modifyQPToInit => bufferCount + 8
  | _, prepareInfo => bufferCount + 7
  | .connecting, sendInfo => bufferCount + 6
  | .connecting, recvInfo => bufferCount + 5
  | .accepting, recvInfo => bufferCount + 6
  | .accepting, sendInfo => bufferCount + 5
  | _, decodeInfo => bufferCount + 4
  | _, modifyQPToRTR => bufferCount + 3
  | _, modifyQPToRTS => bufferCount + 2
  | _, postRecvWRs i => bufferCount - i + 1
  | _, returned _ => 0

theorem Pc.left_pos {n : ℕ} {p : Side} {pc : Pc} (h : ∀ ok, pc ≠ .returned ok) :
    0 < pc.left n p := by
  cases pc with
  | returned ok => exact absurd rfl (h ok)
  | _ => cases p <;> exact Nat.succ_pos _

def State.left (host : Side → Host) (s : State) : ℕ :=
  (s.endpoint .connecting).pc.left (host .connecting).bufferCount .connecting +
    (s.endpoint .accepting).pc.left (host .accepting).bufferCount .accepting

theorem State.left_lt {p : Side} {e : Endpoint} (ht : t.endpoint = Function.update s.endpoint p e)
    (hlt : e.pc.left (host p).bufferCount p
      < (s.endpoint p).pc.left (host p).bufferCount p) : t.left host < s.left host := by
  unfold State.left
  rw [ht]
  cases p with
  | connecting =>
      rw [Function.update_self, Function.update_of_ne Side.noConfusion]
      exact Nat.add_lt_add_right hlt _
  | accepting =>
      rw [Function.update_self, Function.update_of_ne Side.noConfusion]
      exact Nat.add_lt_add_left hlt _

/-- Every step brings a side closer to its end. -/
theorem Step.left_lt {a : Side × Action} (hstep : Step host s a t) :
    t.left host < s.left host := by
  have hclosed : ∀ {p n}, Endpoint.closed.pc.left n p = 0 := by
    intro p n
    cases p <;> rfl
  cases hstep with
  | refused he hpc _ =>
      refine State.left_lt (e := .closed) rfl ?_
      rw [hclosed, he, hpc]
      exact Nat.succ_pos _
  | @endOfStream _ p _ he hpc _ _ =>
      refine State.left_lt (p := p) (e := .closed) rfl ?_
      rw [hclosed, he, hpc]
      cases p <;> exact Nat.succ_pos _
  | @fault _ p _ he hpc _ =>
      refine State.left_lt (p := p) (e := .closed) rfl ?_
      rw [hclosed, he]
      exact Pc.left_pos hpc
  | @sendFault _ p _ _ he hpc _ =>
      refine State.left_lt (p := p) (e := .closed) rfl ?_
      rw [hclosed, he, hpc]
      cases p <;> exact Nat.succ_pos _
  | @postRecvWR _ p e i qp qp' he hpc hi hqp hok =>
      refine State.left_lt (e := { e with qp := some qp', pc := .postRecvWRs (i + 1) }) rfl ?_
      rw [he, hpc]
      cases p
      all_goals
        show _ - (i + 1) + 1 < _ - i + 1
        omega
  | @modifyQPToRTS _ p e qp qp' he hpc hqp hok =>
      refine State.left_lt (e := { e with qp := some qp', pc := .afterRTS (host p) }) rfl ?_
      rw [he, hpc]
      unfold Pc.afterRTS
      split <;> cases p <;> simp [Pc.left]
  | connect he hpc _ | accept he hpc _ =>
      refine State.left_lt rfl ?_
      rw [he, hpc]
      exact Nat.lt_succ_self _
  | @initRdmaResources _ p _ he hpc | @modifyQPToInit _ p _ _ _ he hpc _ _
  | @prepareInfo _ p _ he hpc | @sendInfo _ p _ he hpc | @recvInfo _ p _ _ _ he hpc _
  | @decodeInfo _ p _ _ _ _ he hpc _ _ | @modifyQPToRTR _ p _ _ _ he hpc _ _
  | @postedRecvWRs _ p _ _ he hpc _ =>
      refine State.left_lt (p := p) rfl ?_
      rw [he, hpc]
      cases p <;> simp [Pc.left, Pc.afterPrepare, Pc.afterSend, Pc.afterRecv]

/-- No run is longer than this, whatever fails in it. -/
theorem handshake_terminates {Q : State → Side × Action → Prop} {l : List (Side × Action)}
    (hrun : Lts.Run (Step host) Q s l t) : l.length + t.left host ≤ s.left host := by
  induction hrun with
  | nil => exact (Nat.zero_add _).le
  | cons hstep _ _ ih =>
      have hlt := hstep.left_lt
      rw [List.length_cons]
      omega

/-- The steps of a run in which no call fails by itself. -/
def Faultless (_ : State) (a : Side × Action) : Prop := a.2 ≠ .fault

theorem Inv.not_ended (h : Inv host s) (hnone : ∀ p, (s.endpoint p).pc ≠ .returned false)
    {p : Side} (hpc : (s.endpoint p).pc = .recvInfo) : ¬ s.Ended p := by
  intro hend
  cases p with
  | connecting => exact hnone .accepting (Pc.eq_of_gone (h.wired.unlistened hend))
  | accepting =>
      have hjoined := h.wired.joined .accepting
      rw [hpc] at hjoined
      have hstart := h.wired.connected (hjoined Stage.noConfusion Stage.noConfusion)
      have hgone : (s.endpoint .connecting).pc.stage .connecting ≠ .gone := fun hgone =>
        hnone .connecting (Pc.eq_of_gone hgone)
      have hopen : (s.endpoint .connecting).sockOpen = true := by
        rw [h.endpoint .connecting]
        exact decide_eq_true ⟨hstart, hgone⟩
      exact Bool.noConfusion (hopen.symm.trans hend)

/-- Nobody gives up for the other's sake, if nobody gives up by itself. -/
theorem Inv.step_faultless (h : Inv host s) (hnone : ∀ p, (s.endpoint p).pc ≠ .returned false)
    {a : Side × Action} (ha : Faultless s a) (hstep : Step host s a t) :
    ∀ p, (t.endpoint p).pc ≠ .returned false := by
  have hset : ∀ {p e}, e.pc ≠ .returned false → t.endpoint = Function.update s.endpoint p e →
      ∀ q, (t.endpoint q).pc ≠ .returned false := by
    intro p e he ht q
    rw [ht]
    by_cases hq : q = p
    · subst hq
      rwa [Function.update_self]
    · rw [Function.update_of_ne hq]
      exact hnone q
  cases hstep with
  | refused he hpc hlisten =>
      exact absurd (Pc.eq_of_gone (h.wired.unlistened hlisten)) (hnone .accepting)
  | endOfStream he hpc _ hend => exact absurd hend (h.not_ended hnone (he ▸ hpc))
  | fault _ _ _ => exact absurd rfl ha
  | sendFault _ _ _ => exact absurd rfl ha
  | connect _ _ _ | accept _ _ _ => exact hset (by nofun) rfl
  | modifyQPToRTS _ _ _ _ =>
      refine hset ?_ rfl
      show Pc.afterRTS _ ≠ _
      unfold Pc.afterRTS
      split <;> nofun
  | @initRdmaResources _ p | @modifyQPToInit _ p | @prepareInfo _ p | @sendInfo _ p
  | @recvInfo _ p | @decodeInfo _ p | @modifyQPToRTR _ p | @postRecvWR _ p
  | @postedRecvWRs _ p =>
      refine hset (p := p) ?_ rfl
      cases p <;> nofun

theorem Inv.exists_completion (hcount : ∀ p, (host p).bufferCount ≤ maxRecvWr) (n : ℕ)
    (h : Inv host s) (hleft : s.left host ≤ n)
    (hnone : ∀ p, (s.endpoint p).pc ≠ .returned false) :
    ∃ l t, Lts.Run (Step host) Faultless s l t ∧ ∀ p, (t.endpoint p).pc = .returned true := by
  induction n generalizing s with
  | zero =>
      refine ⟨[], s, .nil s, fun p => ?_⟩
      by_contra hp
      have hpos : 0 < (s.endpoint p).pc.left (host p).bufferCount p := by
        refine Pc.left_pos fun ok hok => ?_
        cases ok with
        | true => exact hp hok
        | false => exact hnone p hok
      unfold State.left at hleft
      cases p <;> omega
  | succ n ih =>
      by_cases hstuck : ∀ p a t, a ≠ .fault → ¬ Step host s (p, a) t
      · refine ⟨[], s, .nil s, fun p => ?_⟩
        rcases h.abandoned_of_stuck hcount hstuck with hret | habandoned
        · obtain ⟨ok, hok⟩ := hret p
          cases ok with
          | true => exact hok
          | false => exact absurd hok (hnone p)
        · rcases habandoned with ⟨-, -, hret⟩ | ⟨-, -, hret⟩
          · exact absurd hret (hnone _)
          · exact absurd hret (hnone _)
      · push Not at hstuck
        obtain ⟨p, a, t, ha, hstep⟩ := hstuck
        have hlt := hstep.left_lt
        have hfaultless : Faultless s (p, a) := ha
        obtain ⟨l, f, hrun, hret⟩ :=
          ih (h.step hstep) (by omega) (h.step_faultless hnone hfaultless hstep)
        exact ⟨_, f, .cons hstep ha hrun, hret⟩

/-- **If no call fails by itself, `Connect` and `Accept` both return true**: every run can
go on until both have, and no run is longer than this. -/
theorem handshake_completes (hcount : ∀ p, (host p).bufferCount ≤ maxRecvWr)
    {l : List (Side × Action)} (hrun : Lts.Run (Step host) Faultless State.init l s) :
    ∃ l' t, Lts.Run (Step host) Faultless s l' t ∧ (∀ p, (t.endpoint p).pc = .returned true) ∧
      (l ++ l').length ≤ (host .connecting).bufferCount + (host .accepting).bufferCount + 20 := by
  have hstart : Inv host State.init ∧
      ∀ p, (State.init.endpoint p).pc ≠ .returned false := ⟨.init, fun _ => nofun⟩
  obtain ⟨-, hinv, hnone⟩ := Lts.Run.preserve (P := Faultless) (Q := Faultless)
    (J := fun s => Inv host s ∧ ∀ p, (s.endpoint p).pc ≠ .returned false)
    (fun hs hstep ha => ⟨⟨hs.1.step hstep, hs.1.step_faultless hs.2 ha hstep⟩, ha⟩) hstart hrun
  obtain ⟨l', t, hrest, hret⟩ := hinv.exists_completion hcount _ le_rfl hnone
  have hbound := handshake_terminates (hrun.append hrest)
  have hinit : State.init.left host
      = (host .connecting).bufferCount + 10 + ((host .accepting).bufferCount + 10) := rfl
  exact ⟨l', t, hrest, hret, by omega⟩

theorem handshake_completes_two :
    ∃ l t, Lts.Run (Step twoHosts) Faultless State.init l t ∧
      (∀ p, (t.endpoint p).pc = .returned true) ∧ ([] ++ l).length ≤ 16 + 16 + 20 :=
  handshake_completes bufferCount_twoHosts (.nil _)

/-! ### What the two know of each other -/

/-- The queue pair of host `h` is ready for the one of host `h'`.  All count their packets
from 0 on. -/
structure ReadyFor (h h' : Host) (qp : Qp) : Prop where
  state : qp.state = .rts
  destQpNum : qp.destQpNum = h'.qpNum
  dlid : qp.ahAttr.dlid = h'.lid
  grh : h.linkLayer = .ethernet → qp.ahAttr.isGlobal = true ∧
    qp.ahAttr.sgidIndex = (findBestGidIndex h.queryGid).1 ∧
    ((∃ j < 16, GidTable.Valid h'.queryGid j) →
      h'.queryGid (findBestGidIndex h'.queryGid).1 = some qp.ahAttr.dgid ∧
        qp.ahAttr.dgid ≠ Gid.zero)
  psn : qp.rqPsn = 0 ∧ qp.sqPsn = 0
  posted : qp.posted = if h.enableZeroCopy then [] else List.range h.bufferCount

theorem readyFor (horder : ∀ p, (host p).order = (host p.peer).order) (p : Side) :
    ReadyFor (host p) (host p.peer) (ready host p (poolWRs host p)) := by
  have hremote : remoteInfo host p = (host p.peer).qpInfo := by
    rw [remoteInfo, horder p, RdmaQpInfo.seen_self]
  refine ⟨rfl, ?_, ?_, fun hlink => ?_, ⟨rfl, rfl⟩, rfl⟩
  · show (remoteInfo host p).qpn = _
    rw [hremote]
    rfl
  · rw [ready, receiving, hremote]
    cases (host p).linkLayer <;> rfl
  · rw [ready, receiving, hremote, hlink]
    refine ⟨rfl, rfl, fun ⟨j, hj, hvalid⟩ => ?_⟩
    rcases findBestGidIndex_spec (host p.peer).queryGid with ⟨hgid, hne, -⟩ | ⟨hnone, -⟩
    · exact ⟨hgid, hne⟩
    · exact absurd hvalid (hnone j hj)

/-- The frame of side `p` is on the wire, or the other side has it. -/
def State.Told (host : Side → Host) (s : State) (p : Side) : Prop :=
  s.wire p = (host p).frame ∨ ((s.endpoint p.peer).pc.stage p.peer).Received p.peer

/-- A step that does not write to the wire of `p`, and after which no more has been received
than before, tells nothing of `p`. -/
theorem State.Told.of_unchanged {p q : Side} {e : Endpoint} (h : t.Told host p)
    (hwire : t.wire p = s.wire p) (ht : t.endpoint = Function.update s.endpoint q e)
    (he : p.peer = q → (e.pc.stage q).Received q → ((s.endpoint q).pc.stage q).Received q) :
    s.Told host p := by
  refine h.imp hwire.symm.trans fun hreceived => ?_
  rw [ht] at hreceived
  by_cases hq : p.peer = q
  · subst hq
    rw [Function.update_self] at hreceived
    exact he rfl hreceived
  · rwa [Function.update_of_ne hq] at hreceived

/-- Only the `SendAll` of a side tells the other its QP info, and all of it. -/
theorem Inv.told_of_step (h : Inv host s) {a : Side × Action} (hstep : Step host s a t)
    {p : Side} (htold : t.Told host p) :
    s.Told host p ∨ ((t.endpoint p).pc.stage p).Sent p := by
  have hgone : ∀ {q}, ¬ (Endpoint.closed.pc.stage q).Received q := by
    intro q
    cases q <;> exact id
  cases hstep with
  | @sendInfo _ q e he hpc =>
      rcases Side.eq_or_eq_peer q p with rfl | rfl
      · right
        show ((Function.update s.endpoint p _ p).pc.stage p).Sent p
        rw [Function.update_self]
        cases p <;> trivial
      · refine .inl (htold.of_unchanged (Function.update_of_ne (Side.peer_ne q) _ _) rfl
          fun _ => ?_)
        rw [he, hpc]
        cases q <;> exact id
  | @recvInfo _ q e data rest he hpc hrecv =>
      rcases Side.eq_or_eq_peer q p with rfl | rfl
      · exact .inl (htold.of_unchanged (Function.update_of_ne (Side.peer_ne p).symm _ _) rfl
          fun hp => absurd hp (Side.peer_ne p))
      · exact .inl (.inl (h.wired.of_recvAll hrecv).1)
  | @sendFault _ q e n he hpc hn =>
      rcases Side.eq_or_eq_peer q p with rfl | rfl
      · refine .inl (htold.elim (fun hwire => ?_) fun hreceived => .inr ?_)
        · -- a part of the frame is not the frame
          have hpart : Function.update s.wire p (s.wire p ++ (host p).frame.take n) p
              = (host p).frame := hwire
          rw [Function.update_self, h.wire_of_sendInfo (he ▸ hpc), List.nil_append] at hpart
          have hlen := congrArg List.length hpart
          rw [List.length_take_of_le hn.le] at hlen
          exact absurd hlen hn.ne
        · have hother : (State.giveUp s p).endpoint p.peer = s.endpoint p.peer :=
            Function.update_of_ne (Side.peer_ne p) _ _
          rwa [← hother]
      · exact .inl (htold.of_unchanged (Function.update_of_ne (Side.peer_ne q) _ _) rfl
          fun _ hreceived => absurd hreceived hgone)
  | refused _ _ _ | endOfStream _ _ _ _ | fault _ _ _ =>
      exact .inl (htold.of_unchanged rfl rfl fun _ hreceived => absurd hreceived hgone)
  | modifyQPToRTS he hpc _ _ =>
      refine .inl (htold.of_unchanged rfl rfl fun _ _ => ?_)
      rw [he, hpc]
      trivial
  | @initRdmaResources _ q _ he hpc | @modifyQPToInit _ q _ _ _ he hpc _ _
  | @prepareInfo _ q _ he hpc | @decodeInfo _ q _ _ _ _ he hpc _ _
  | @modifyQPToRTR _ q _ _ _ he hpc _ _ | @postRecvWR _ q _ _ _ _ he hpc _ _ _
  | @postedRecvWRs _ q _ _ he hpc _ =>
      refine .inl (htold.of_unchanged (q := q) rfl rfl fun _ => ?_)
      rw [he, hpc]
      cases q <;> exact id
  | connect he hpc _ | accept he hpc _ =>
      refine .inl (htold.of_unchanged rfl rfl fun _ => ?_)
      rw [he, hpc]
      exact id

/-- **When `Connect` or `Accept` returns true**, the queue pair is ready for the one of the
other side, and the other side has sent its QP info before.  When both return true, each
accepts what the other sends. -/
theorem handshake_agrees (horder : ∀ p, (host p).order = (host p.peer).order)
    {l : List (Side × Action)} (hrun : Lts.Run (Step host) (fun _ _ => True) State.init l s)
    {p : Side} (hp : (s.endpoint p).pc = .returned true) :
    ∃ qp, (s.endpoint p).qp = some qp ∧ ReadyFor (host p) (host p.peer) qp ∧
      (∃ l₁ l₂ u, l = l₁ ++ l₂ ∧ Lts.Run (Step host) (fun _ _ => True) State.init l₁ u ∧
        Lts.Run (Step host) (fun _ _ => True) u l₂ s ∧
        ((u.endpoint p.peer).pc.stage p.peer).Sent p.peer) ∧
      ((s.endpoint p.peer).pc = .returned true → ∃ qp', (s.endpoint p.peer).qp = some qp' ∧
        qp.sqPsn = qp'.rqPsn ∧ qp.pathMtu = qp'.pathMtu ∧
        qp.maxRdAtomic ≤ qp'.maxDestRdAtomic) := by
  have h := inv_of_reaches hrun.reaches
  have hqp : ∀ {q}, (s.endpoint q).pc = .returned true →
      (s.endpoint q).qp = some (ready host q (poolWRs host q)) := by
    intro q hq
    rw [h.endpoint q, hq]
    rfl
  refine ⟨_, hqp hp, readyFor horder p, ?_, fun hpeer => ⟨_, hqp hpeer, rfl, rfl, le_rfl⟩⟩
  -- the step after which its peer has been told is the peer's `SendAll`
  have hnot : ¬ State.init.Told host p.peer := by
    rintro (hwire | hreceived)
    · exact (host p.peer).frame_ne_nil hwire.symm
    · revert hreceived
      cases p <;> exact id
  have htold : s.Told host p.peer := by
    refine .inr ?_
    rw [Side.peer_peer, hp]
    cases p <;> trivial
  obtain ⟨l₁, u, a, v, l₂, rfl, hbefore, hu, hstep, -, hv, hafter⟩ :=
    hrun.exists_crossing (J := (State.Told host · p.peer)) hnot htold
  refine ⟨l₁ ++ [a], l₂, v, by simp, hbefore.append (.single hstep trivial), hafter, ?_⟩
  exact ((inv_of_reaches hbefore.reaches).told_of_step hstep hv).resolve_left hu

/-- What the two hosts have in the end. -/
theorem handshake_agrees_two : ∃ s, (Step twoHosts).Reaches State.init s ∧
    ∃ qp, (s.endpoint .connecting).qp = some qp ∧
      ReadyFor (twoHosts .connecting) (twoHosts .accepting) qp := by
  obtain ⟨l, s, hrun, hret⟩ :=
    Inv.init.exists_completion bufferCount_twoHosts _ le_rfl fun _ => nofun
  have horder : ∀ p, (twoHosts p).order = (twoHosts p.peer).order := by
    rintro (_ | _) <;> rfl
  obtain ⟨qp, hqp, hready, -⟩ :=
    handshake_agrees horder (hrun.mono fun _ => trivial) (hret .connecting)
  exact ⟨s, hrun.reaches, qp, hqp, hready⟩

end Handshake

end MiniCcl.TransportRdma
