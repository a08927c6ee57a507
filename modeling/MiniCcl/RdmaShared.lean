/-
MiniCcl/RdmaShared.lean

The context and the protection domain that all `TransportRdma` objects of a process
share, and the life of these objects.

The calls on different objects are interleaved: a step is one verbs or socket call,
one critical section of `RdmaSharedResources`, or the destruction of `rdma_res`.
Every verbs or socket call may fail, and each failure has its way out: to the bottom
of `InitRdmaResources`, or through `Close`.

An object counts as a user from its `Acquire` to its `Release`.  What has to be seen
is that on every way out `rdma_res` is gone before the `Release`, and that there is
one `Release` for each `Acquire`: `shared_consistent`.
-/
import MiniCcl.Confluence
import Mathlib.Data.List.Basic

namespace MiniCcl.RdmaShared

/-! ### The shared resources -/

/-- `RdmaSharedResources`.  A handle is a number, and none is `nullptr`. -/
structure Shared where
  refCount : ℕ
  ctx : Option ℕ
  pd : Option ℕ
  deriving DecidableEq, Repr

/-- What the calls of `Initialize` return: whether there is a device, and the results
of `ibv_open_device` and `ibv_alloc_pd`. -/
structure Devices where
  found : Bool
  openDevice : Option ℕ
  allocPd : Option ℕ
  deriving DecidableEq, Repr

namespace Shared

/-- `Initialize` -/
def initializeDevice (d : Devices) (s : Shared) : Bool × Shared :=
  if !d.found then (false, s)
  else
    match d.openDevice with
    | none => (false, { s with ctx := none })
    | some ctx =>
        match d.allocPd with
        | none => (false, { s with ctx := none, pd := none })
        | some pd => (true, { s with ctx := some ctx, pd := some pd })

def cleanup (s : Shared) : Shared := { s with ctx := none, pd := none }

def acquire (d : Devices) (s : Shared) : Bool × Shared :=
  if s.refCount = 0 then
    match s.initializeDevice d with
    | (false, s') => (false, s')
    | (true, s') => (true, { s' with refCount := s'.refCount + 1 })
  else (true, { s with refCount := s.refCount + 1 })

def release (s : Shared) : Shared :=
  if 0 < s.refCount then
    if s.refCount - 1 = 0 then { s with refCount := s.refCount - 1 }.cleanup
    else { s with refCount := s.refCount - 1 }
  else s

/-- The handles are open exactly when there are users. -/
structure Open (s : Shared) : Prop where
  ctx : s.ctx ≠ none ↔ 0 < s.refCount
  pd : s.pd ≠ none ↔ 0 < s.refCount

variable {s s' : Shared} {d : Devices}

theorem Open.eq_none (h : s.Open) (hcount : s.refCount = 0) : s.ctx = none ∧ s.pd = none := by
  constructor
  · by_contra hne
    exact absurd hcount (Nat.ne_zero_of_lt (h.ctx.mp hne))
  · by_contra hne
    exact absurd hcount (Nat.ne_zero_of_lt (h.pd.mp hne))

/-- A failed `Initialize` leaves nothing open. -/
theorem initializeDevice_false (h : s.Open) (hcount : s.refCount = 0)
    (hinit : s.initializeDevice d = (false, s')) : s' = s := by
  obtain ⟨hctx, hpd⟩ := h.eq_none hcount
  obtain ⟨refCount, ctx, pd⟩ := s
  obtain ⟨found, openDevice, allocPd⟩ := d
  cases hctx
  cases hpd
  cases found with
  | false =>
      cases hinit
      rfl
  | true =>
      rcases openDevice with - | ctx
      · cases hinit
        rfl
      · rcases allocPd with - | pd
        · cases hinit
          rfl
        · cases hinit

theorem initializeDevice_true (hinit : s.initializeDevice d = (true, s')) :
    ∃ ctx pd, s' = { s with ctx := some ctx, pd := some pd } := by
  obtain ⟨found, openDevice, allocPd⟩ := d
  cases found with
  | false => cases hinit
  | true =>
      rcases openDevice with - | ctx
      · cases hinit
      · rcases allocPd with - | pd
        · cases hinit
        · cases hinit
          exact ⟨ctx, pd, rfl⟩

theorem acquire_false (h : s.Open) (hacquire : s.acquire d = (false, s')) : s' = s := by
  unfold acquire at hacquire
  split at hacquire
  · rename_i hcount
    rcases hinit : s.initializeDevice d with ⟨ok, s₁⟩
    rw [hinit] at hacquire
    cases ok with
    | false =>
        cases hacquire
        exact initializeDevice_false h hcount hinit
    | true => cases hacquire
  · cases hacquire

/-- `Acquire` adds a user, and keeps the handles if there are users. -/
theorem acquire_true (h : s.Open) (hacquire : s.acquire d = (true, s')) :
    s'.Open ∧ s'.refCount = s.refCount + 1 ∧
      (0 < s.refCount → s'.ctx = s.ctx ∧ s'.pd = s.pd) := by
  unfold acquire at hacquire
  split at hacquire
  · rename_i hcount
    rcases hinit : s.initializeDevice d with ⟨ok, s₁⟩
    rw [hinit] at hacquire
    cases ok with
    | false => cases hacquire
    | true =>
        obtain ⟨ctx, pd, rfl⟩ := initializeDevice_true hinit
        cases hacquire
        refine ⟨⟨?_, ?_⟩, rfl, fun hpos => absurd hcount (Nat.ne_zero_of_lt hpos)⟩
        · exact iff_of_true (Option.some_ne_none _) (Nat.succ_pos _)
        · exact iff_of_true (Option.some_ne_none _) (Nat.succ_pos _)
  · rename_i hcount
    have hpos := Nat.pos_of_ne_zero hcount
    cases hacquire
    refine ⟨⟨?_, ?_⟩, rfl, fun _ => ⟨rfl, rfl⟩⟩
    · exact iff_of_true (h.ctx.mpr hpos) (Nat.succ_pos _)
    · exact iff_of_true (h.pd.mpr hpos) (Nat.succ_pos _)

/-- `Release` removes a user, and keeps the handles if there are others. -/
theorem release_spec (h : s.Open) (hpos : 0 < s.refCount) :
    s.release.Open ∧ s.release.refCount + 1 = s.refCount ∧
      (1 < s.refCount → s.release.ctx = s.ctx ∧ s.release.pd = s.pd) := by
  unfold release
  rw [if_pos hpos]
  split
  · rename_i hlast
    refine ⟨⟨?_, ?_⟩, Nat.sub_add_cancel hpos, fun hmore => ?_⟩
    · exact iff_of_false (fun hne => hne rfl) (by rw [cleanup, hlast]; exact Nat.lt_irrefl 0)
    · exact iff_of_false (fun hne => hne rfl) (by rw [cleanup, hlast]; exact Nat.lt_irrefl 0)
    · omega
  · rename_i hlast
    have hrest := Nat.pos_of_ne_zero hlast
    refine ⟨⟨?_, ?_⟩, Nat.sub_add_cancel hpos, fun _ => ⟨rfl, rfl⟩⟩
    · exact iff_of_true (h.ctx.mpr hpos) hrest
    · exact iff_of_true (h.pd.mpr hpos) hrest

end Shared

/-! ### One transport -/

/-- `rdma_res`: the handles it was created on. -/
structure RdmaResources where
  ctx : Option ℕ
  pd : Option ℕ
  deriving DecidableEq, Repr

/-- The calls of `InitRdmaResources` after `Acquire`. -/
inductive InitCall
  | queryPort
  | createCompChannel
  | createCq
  | createQp
  | initBufferPool
  deriving DecidableEq, Repr

def InitCall.next : InitCall → Option InitCall
  | queryPort => some createCompChannel
  | createCompChannel => some createCq
  | createCq => some createQp
  | createQp => some initBufferPool
  | initBufferPool => none

/-- The calls of `Connect` and `Accept` after `InitRdmaResources`. -/
inductive SetupCall
  | createSocket
  | modifyQPToInit
  | exchangeQPInfo
  | modifyQPToRTR
  | modifyQPToRTS
  | postRecvWRs
  deriving DecidableEq, Repr

/-- Receive WRs are posted only if zero copy is disabled. -/
def SetupCall.next (enableZeroCopy : Bool) : SetupCall → Option SetupCall
  | createSocket => some modifyQPToInit
  | modifyQPToInit => some exchangeQPInfo
  | exchangeQPInfo => some modifyQPToRTR
  | modifyQPToRTR => some modifyQPToRTS
  | modifyQPToRTS => if enableZeroCopy then none else some postRecvWRs
  | postRecvWRs => none

/-- Why the resources are given up: at the bottom of `InitRdmaResources`, in `Close`, or
in the `Close` of the destructor. -/
inductive GiveUp
  | initFailed
  | close
  | destroy
  deriving DecidableEq, Repr

inductive Pc
  | idle
  | acquire
  | init (call : InitCall)
  | setup (call : SetupCall)
  | reset (why : GiveUp)
  | release (why : GiveUp)
  | destroyed
  deriving DecidableEq, Repr

structure Transport where
  connected : Bool
  rdmaRes : Option RdmaResources
  /-- `shared_resources_acquired` -/
  acquired : Bool
  /-- `tcp_listen_fd` is set. -/
  listening : Bool
  enableZeroCopy : Bool
  pc : Pc
  deriving DecidableEq, Repr

inductive Action
  | create
  | listen
  | connect
  | accept
  | createAccepted
  | acquire
  | init
  | setup
  | close
  | destroy
  | reset
  | release
  | delete
  deriving DecidableEq, Repr

namespace Transport

def new (enableZeroCopy : Bool) : Transport := ⟨false, none, false, false, enableZeroCopy, .idle⟩

/-- `Connect` and `Accept` begin with a new `rdma_res`. -/
def start (x : Transport) : Transport := { x with rdmaRes := some ⟨none, none⟩, pc := .acquire }

/-- After the `Release`. -/
def givenUp (x : Transport) : GiveUp → Transport
  | .initFailed => { x with acquired := false, pc := .idle }
  | .close => { x with acquired := false, connected := false, pc := .idle }
  | .destroy => { x with acquired := false, connected := false, pc := .destroyed }

/-- The steps of the calls on one transport, with the shared resources before and
after. -/
inductive Step (r : Shared) (x : Transport) : Action → Shared → Transport → Prop
  | listen (ok : Bool) (h : x.pc = .idle) : Step r x .listen r { x with listening := ok }
  | connect (h : x.pc = .idle) (hconn : x.connected = false) : Step r x .connect r x.start
  | accept (h : x.pc = .idle) (hconn : x.connected = false) (hlisten : x.listening = true) :
      Step r x .accept r x.start
  -- not in listen mode
  | acceptFail (h : x.pc = .idle) (hlisten : x.listening = false) : Step r x .accept r x
  | acquire {d : Devices} {r' : Shared} (h : x.pc = .acquire)
      (hacquire : r.acquire d = (true, r')) :
      Step r x .acquire r'
        { x with rdmaRes := some ⟨r'.ctx, r'.pd⟩, acquired := true, pc := .init .queryPort }
  | acquireFail {d : Devices} {r' : Shared} (h : x.pc = .acquire)
      (hacquire : r.acquire d = (false, r')) :
      Step r x .acquire r' { x with rdmaRes := none, pc := .idle }
  | init {call next : InitCall} (h : x.pc = .init call) (hnext : call.next = some next) :
      Step r x .init r { x with pc := .init next }
  | initLast {call : InitCall} (h : x.pc = .init call) (hnext : call.next = none) :
      Step r x .init r { x with pc := .setup .createSocket }
  | initFail {call : InitCall} (h : x.pc = .init call) :
      Step r x .init r { x with pc := .reset .initFailed }
  | setup {call next : SetupCall} (h : x.pc = .setup call)
      (hnext : call.next x.enableZeroCopy = some next) :
      Step r x .setup r { x with pc := .setup next }
  | setupLast {call : SetupCall} (h : x.pc = .setup call)
      (hnext : call.next x.enableZeroCopy = none) :
      Step r x .setup r { x with connected := true, pc := .idle }
  | setupFail {call : SetupCall} (h : x.pc = .setup call) :
      Step r x .setup r { x with listening := false, pc := .reset .close }
  | close (h : x.pc = .idle) : Step r x .close r { x with listening := false, pc := .reset .close }
  | destroy (h : x.pc = .idle) :
      Step r x .destroy r { x with listening := false, pc := .reset .destroy }
  | reset {why : GiveUp} (h : x.pc = .reset why) :
      Step r x .reset r { x with rdmaRes := none, pc := .release why }
  | release {why : GiveUp} (h : x.pc = .release why) :
      Step r x .release (if x.acquired then r.release else r) (x.givenUp why)

/-- Fully up. -/
def Up (x : Transport) : Prop := x.connected = true ∧ x.rdmaRes ≠ none ∧ x.acquired = true

/-- Fully down. -/
def Down (x : Transport) : Prop := x.connected = false ∧ x.rdmaRes = none ∧ x.acquired = false

/-- Acquired, and not yet connected. -/
def Half (x : Transport) : Prop := x.connected = false ∧ x.rdmaRes ≠ none ∧ x.acquired = true

/-- What holds of a transport at each place. -/
def Ok (x : Transport) : Prop :=
  match x.pc with
  | .idle => x.Up ∨ x.Down
  | .acquire => x.connected = false ∧ x.rdmaRes = some ⟨none, none⟩ ∧ x.acquired = false
  | .init _ => x.Half
  | .setup _ => x.Half
  | .reset .initFailed => x.Half
  | .reset _ => x.rdmaRes ≠ none ↔ x.acquired = true
  | .release .initFailed => x.connected = false ∧ x.rdmaRes = none
  | .release _ => x.rdmaRes = none
  | .destroyed => x.Down

/-- What the transport has created is on the shared handles. -/
def Holds (r : Shared) (x : Transport) : Prop :=
  ∀ res, x.rdmaRes = some res → x.acquired = true → res.ctx = r.ctx ∧ res.pd = r.pd

/-- The number of users that the transport is. -/
def users (x : Transport) : ℕ := if x.acquired then 1 else 0

variable {r r' : Shared} {x x' : Transport} {a : Action}

theorem Ok.idle (h : x.Ok) (hpc : x.pc = .idle) : x.Up ∨ x.Down := by
  rwa [Ok, hpc] at h

theorem Ok.acquire (h : x.Ok) (hpc : x.pc = .acquire) :
    x.connected = false ∧ x.rdmaRes = some ⟨none, none⟩ ∧ x.acquired = false := by
  rwa [Ok, hpc] at h

theorem Ok.half_init (h : x.Ok) {call : InitCall} (hpc : x.pc = .init call) : x.Half := by
  rwa [Ok, hpc] at h

theorem Ok.half_setup (h : x.Ok) {call : SetupCall} (hpc : x.pc = .setup call) : x.Half := by
  rwa [Ok, hpc] at h

/-- Also between two calls, `rdma_res` is there exactly if the resources are acquired. -/
theorem Ok.res_iff (h : x.Ok) (hpc : x.pc = .idle) : x.rdmaRes ≠ none ↔ x.acquired = true := by
  rcases h.idle hpc with ⟨-, hres, hacquired⟩ | ⟨-, hres, hacquired⟩
  · exact iff_of_true hres hacquired
  · exact iff_of_false (fun hne => hne hres) (by rw [hacquired]; exact Bool.false_ne_true)

theorem Ok.down (h : x.Ok) (hpc : x.pc = .idle) (hconn : x.connected = false) : x.Down := by
  rcases h.idle hpc with ⟨hup, -⟩ | hdown
  · exact nomatch hconn.symm.trans hup
  · exact hdown

/-- On every way out `rdma_res` is gone before the `Release`. -/
theorem Ok.release (h : x.Ok) {why : GiveUp} (hpc : x.pc = .release why) :
    x.rdmaRes = none ∧ (why = .initFailed → x.connected = false) := by
  cases why with
  | initFailed =>
      rw [Ok, hpc] at h
      exact ⟨h.2, fun _ => h.1⟩
  | close =>
      rw [Ok, hpc] at h
      exact ⟨h, nofun⟩
  | destroy =>
      rw [Ok, hpc] at h
      exact ⟨h, nofun⟩

/-- Without the shared resources `rdma_res` has nothing yet. -/
theorem Ok.res_eq (h : x.Ok) (hacquired : x.acquired = false) {res : RdmaResources}
    (hres : x.rdmaRes = some res) : res = ⟨none, none⟩ := by
  have hhalf : ¬ x.Half := fun hhalf => nomatch hacquired.symm.trans hhalf.2.2
  have hnone : x.rdmaRes ≠ none := by rw [hres]; exact Option.some_ne_none _
  have hreset : ¬ (x.rdmaRes ≠ none ↔ x.acquired = true) := fun hiff =>
    nomatch hacquired.symm.trans (hiff.mp hnone)
  cases hpc : x.pc with
  | idle =>
      rcases h.idle hpc with hup | hdown
      · exact nomatch hacquired.symm.trans hup.2.2
      · exact absurd hdown.2.1 hnone
  | acquire => exact Option.some.inj (hres.symm.trans (h.acquire hpc).2.1)
  | init call => exact absurd (h.half_init hpc) hhalf
  | setup call => exact absurd (h.half_setup hpc) hhalf
  | reset why =>
      rw [Ok, hpc] at h
      cases why with
      | initFailed => exact absurd h hhalf
      | close => exact absurd h hreset
      | destroy => exact absurd h hreset
  | release why => exact absurd (h.release hpc).1 hnone
  | destroyed =>
      rw [Ok, hpc] at h
      exact absurd h.2.1 hnone

/-- What a step of a transport means for the shared resources. -/
structure Kept (r : Shared) (x : Transport) (r' : Shared) (x' : Transport) : Prop where
  ok : x'.Ok
  holds : x'.Holds r'
  isOpen : r'.Open
  count : r'.refCount + x.users = r.refCount + x'.users
  /-- The handles stay as long as there are other users. -/
  handles : x.users < r.refCount → r'.ctx = r.ctx ∧ r'.pd = r.pd

/-- A step that neither acquires nor releases. -/
theorem Kept.same (hopen : r.Open) (hok : x'.Ok) (hholds : x'.Holds r)
    (hacquired : x'.acquired = x.acquired) : Kept r x r x' := by
  refine ⟨hok, hholds, hopen, ?_, fun _ => ⟨rfl, rfl⟩⟩
  rw [users, users, hacquired]

theorem holds_of_none (hres : x.rdmaRes = none) : x.Holds r := by
  intro res heq
  rw [hres] at heq
  cases heq

theorem ok_of_idle (hpc : x.pc = .idle) (h : x.Up ∨ x.Down) : x.Ok := by
  rwa [Ok, hpc]

/-- The new `rdma_res` is on no handles yet. -/
theorem Kept.start (hopen : r.Open) (hdown : x.Down) : Kept r x r x.start := by
  obtain ⟨hconn, -, hacquired⟩ := hdown
  refine .same hopen ⟨hconn, rfl, hacquired⟩ ?_ rfl
  intro res _ hacquired'
  exact nomatch hacquired.symm.trans hacquired'

theorem Ok.reset (h : x.Ok) {why : GiveUp} (hpc : x.pc = .reset why) :
    Ok { x with rdmaRes := none, pc := .release why } := by
  cases why with
  | initFailed =>
      rw [Ok, hpc] at h
      exact ⟨h.1, rfl⟩
  | close => exact rfl
  | destroy => exact rfl

theorem ok_givenUp {why : GiveUp} (hres : x.rdmaRes = none)
    (hconn : why = .initFailed → x.connected = false) : (x.givenUp why).Ok := by
  cases why with
  | initFailed => exact .inr ⟨hconn rfl, hres, rfl⟩
  | close => exact .inr ⟨rfl, hres, rfl⟩
  | destroy => exact ⟨rfl, hres, rfl⟩

theorem givenUp_eq (x : Transport) (why : GiveUp) :
    (x.givenUp why).rdmaRes = x.rdmaRes ∧ (x.givenUp why).acquired = false := by
  cases why <;> exact ⟨rfl, rfl⟩

/-- There is one `Release` for the `Acquire`. -/
theorem Kept.release (hopen : r.Open) (hok : x.Ok) (hle : x.users ≤ r.refCount) {why : GiveUp}
    (hpc : x.pc = .release why) :
    Kept r x (if x.acquired then r.release else r) (x.givenUp why) := by
  obtain ⟨hres, hconn⟩ := hok.release hpc
  obtain ⟨hres', hacquired'⟩ := x.givenUp_eq why
  have hok' := ok_givenUp hres hconn
  cases hacquired : x.acquired with
  | false =>
      exact .same hopen hok' (holds_of_none (hres'.trans hres)) (hacquired'.trans hacquired.symm)
  | true =>
      have husers : x.users = 1 := by rw [users, if_pos hacquired]
      rw [husers] at hle
      obtain ⟨hopen', hcount, hhandles⟩ := Shared.release_spec hopen hle
      refine ⟨hok', holds_of_none (hres'.trans hres), hopen', ?_, ?_⟩
      · rw [husers, users, hacquired']
        exact hcount
      · rw [husers]
        exact hhandles

/-- **Step lemma.**  Every step of a transport keeps it and the shared resources
consistent. -/
theorem Step.kept (h : Step r x a r' x') (hopen : r.Open) (hok : x.Ok) (hholds : x.Holds r)
    (hle : x.users ≤ r.refCount) : Kept r x r' x' := by
  cases h with
  | listen ok hpc => exact .same hopen (ok_of_idle hpc (hok.idle hpc)) hholds rfl
  | connect hpc hconn => exact .start hopen (hok.down hpc hconn)
  | accept hpc hconn hlisten => exact .start hopen (hok.down hpc hconn)
  | acceptFail hpc hlisten => exact .same hopen hok hholds rfl
  | acquire hpc hacquire =>
      obtain ⟨hconn, -, hacquired⟩ := hok.acquire hpc
      obtain ⟨hopen', hcount, hhandles⟩ := Shared.acquire_true hopen hacquire
      have husers : x.users = 0 := by rw [users, hacquired]; rfl
      refine ⟨⟨hconn, Option.some_ne_none _, rfl⟩, ?_, hopen', ?_, ?_⟩
      · intro res hres _
        cases hres
        exact ⟨rfl, rfl⟩
      · rw [husers]
        exact hcount
      · rw [husers]
        exact hhandles
  | acquireFail hpc hacquire =>
      obtain ⟨hconn, -, hacquired⟩ := hok.acquire hpc
      obtain rfl := Shared.acquire_false hopen hacquire
      exact .same hopen (.inr ⟨hconn, rfl, hacquired⟩) (holds_of_none rfl) rfl
  | init hpc hnext => exact .same hopen (hok.half_init hpc) hholds rfl
  | initLast hpc hnext => exact .same hopen (hok.half_init hpc) hholds rfl
  | initFail hpc => exact .same hopen (hok.half_init hpc) hholds rfl
  | setup hpc hnext => exact .same hopen (hok.half_setup hpc) hholds rfl
  | setupLast hpc hnext =>
      obtain ⟨-, hres, hacquired⟩ := hok.half_setup hpc
      exact .same hopen (.inl ⟨rfl, hres, hacquired⟩) hholds rfl
  | setupFail hpc =>
      obtain ⟨-, hres, hacquired⟩ := hok.half_setup hpc
      exact .same hopen (iff_of_true hres hacquired) hholds rfl
  | close hpc => exact .same hopen (hok.res_iff hpc) hholds rfl
  | destroy hpc => exact .same hopen (hok.res_iff hpc) hholds rfl
  | reset hpc => exact .same hopen (hok.reset hpc) (holds_of_none rfl) rfl
  | release hpc => exact .release hopen hok hle hpc

end Transport

/-! ### The process -/

structure Process where
  shared : Shared
  transports : List Transport

namespace Process

def init : Process := ⟨⟨0, none, none⟩, []⟩

/-- The steps of the process.  A transport of `CreateAcceptedConnection` is a new one
that listens on the socket of another and is in its `Accept`; one that fails is idle,
to be destroyed. -/
inductive Step : Lts Process Action
  | create {r : Shared} {l : List Transport} (enableZeroCopy : Bool) :
      Step ⟨r, l⟩ .create ⟨r, .new enableZeroCopy :: l⟩
  | own {r r' : Shared} {l₁ l₂ : List Transport} {x x' : Transport} {a : Action}
      (h : Transport.Step r x a r' x') : Step ⟨r, l₁ ++ x :: l₂⟩ a ⟨r', l₁ ++ x' :: l₂⟩
  | createAccepted {r : Shared} {l : List Transport} {x : Transport} (hx : x ∈ l)
      (hlisten : x.listening = true) :
      Step ⟨r, l⟩ .createAccepted ⟨r, { Transport.new false with listening := true }.start :: l⟩
  | createAcceptedFail {r : Shared} {l : List Transport} {x : Transport} (hx : x ∈ l)
      (hlisten : x.listening = false) : Step ⟨r, l⟩ .createAccepted ⟨r, l⟩
  | delete {r : Shared} {l₁ l₂ : List Transport} {x : Transport} (h : x.pc = .destroyed) :
      Step ⟨r, l₁ ++ x :: l₂⟩ .delete ⟨r, l₁ ++ l₂⟩

/-- The transports between a successful `Acquire` and its `Release`. -/
def users (s : Process) : ℕ := s.transports.countP fun x => x.acquired

structure Consistent (s : Process) : Prop where
  isOpen : s.shared.Open
  count : s.shared.refCount = s.users
  ok : ∀ x ∈ s.transports, x.Ok
  holds : ∀ x ∈ s.transports, x.Holds s.shared

variable {r r' : Shared} {l l₁ l₂ : List Transport} {x x' : Transport}

theorem users_mid (r : Shared) (l₁ l₂ : List Transport) (x : Transport) :
    (⟨r, l₁ ++ x :: l₂⟩ : Process).users = (⟨r, l₁ ++ l₂⟩ : Process).users + x.users := by
  simp only [users, Transport.users, List.countP_append, List.countP_cons]
  omega

theorem mem_mid {y : Transport} : y ∈ l₁ ++ x :: l₂ ↔ y = x ∨ y ∈ l₁ ++ l₂ := by
  rw [List.mem_append, List.mem_append, List.mem_cons]
  exact or_left_comm

/-- A transport that has nothing is added. -/
theorem Consistent.cons (h : Consistent ⟨r, l⟩) (hok : x.Ok) (hacquired : x.acquired = false) :
    Consistent ⟨r, x :: l⟩ := by
  constructor
  · exact h.isOpen
  · show r.refCount = (x :: l).countP _
    rw [List.countP_cons_of_neg (by rw [hacquired]; exact Bool.false_ne_true)]
    exact h.count
  · intro y hy
    rcases List.mem_cons.mp hy with rfl | hy
    · exact hok
    · exact h.ok y hy
  · intro y hy
    rcases List.mem_cons.mp hy with rfl | hy
    · intro res _ hacquired'
      exact nomatch hacquired.symm.trans hacquired'
    · exact h.holds y hy

/-- The steps of one transport leave what the others hold. -/
theorem Consistent.own (h : Consistent ⟨r, l₁ ++ x :: l₂⟩) {a : Action}
    (hstep : Transport.Step r x a r' x') : Consistent ⟨r', l₁ ++ x' :: l₂⟩ := by
  have hcount : r.refCount = (⟨r, l₁ ++ l₂⟩ : Process).users + x.users :=
    h.count.trans (users_mid r l₁ l₂ x)
  have hx : x ∈ l₁ ++ x :: l₂ := mem_mid.mpr (.inl rfl)
  have hkept := hstep.kept h.isOpen (h.ok x hx) (h.holds x hx) (by omega)
  constructor
  · exact hkept.isOpen
  · show r'.refCount = (⟨r', l₁ ++ x' :: l₂⟩ : Process).users
    have husers : (⟨r', l₁ ++ l₂⟩ : Process).users = (⟨r, l₁ ++ l₂⟩ : Process).users := rfl
    rw [users_mid, husers]
    have hkcount := hkept.count
    omega
  · intro y hy
    rcases mem_mid.mp hy with rfl | hy
    · exact hkept.ok
    · exact h.ok y (mem_mid.mpr (.inr hy))
  · intro y hy
    rcases mem_mid.mp hy with rfl | hy
    · exact hkept.holds
    · intro res hres hacquired
      -- another user, so that the handles stay
      have hpos : 0 < (⟨r, l₁ ++ l₂⟩ : Process).users :=
        List.countP_pos_iff.mpr ⟨y, hy, hacquired⟩
      obtain ⟨hctx, hpd⟩ := hkept.handles (by omega)
      rw [hctx, hpd]
      exact h.holds y (mem_mid.mpr (.inr hy)) res hres hacquired

theorem Consistent.delete (h : Consistent ⟨r, l₁ ++ x :: l₂⟩) (hpc : x.pc = .destroyed) :
    Consistent ⟨r, l₁ ++ l₂⟩ := by
  have hok := h.ok x (mem_mid.mpr (.inl rfl))
  rw [Transport.Ok, hpc] at hok
  have husers : x.users = 0 := by rw [Transport.users, hok.2.2]; rfl
  constructor
  · exact h.isOpen
  · have hcount := h.count
    rwa [users_mid, husers] at hcount
  · intro y hy
    exact h.ok y (mem_mid.mpr (.inr hy))
  · intro y hy
    exact h.holds y (mem_mid.mpr (.inr hy))

theorem Consistent.step {s s' : Process} {a : Action} (h : s.Consistent) (hstep : Step s a s') :
    s'.Consistent := by
  cases hstep with
  | create enableZeroCopy => exact h.cons (.inr ⟨rfl, rfl, rfl⟩) rfl
  | own hown => exact h.own hown
  | createAccepted hx hlisten => exact h.cons ⟨rfl, rfl, rfl⟩ rfl
  | createAcceptedFail hx hlisten => exact h
  | delete hpc => exact h.delete hpc

theorem consistent_init : init.Consistent := by
  refine ⟨⟨?_, ?_⟩, rfl, fun x hx => absurd hx List.not_mem_nil,
    fun x hx => absurd hx List.not_mem_nil⟩
  · exact iff_of_false (fun hne => hne rfl) (Nat.lt_irrefl 0)
  · exact iff_of_false (fun hne => hne rfl) (Nat.lt_irrefl 0)

/-- What a transport has created, it has created on handles of the process. -/
theorem Consistent.handles {s : Process} (h : s.Consistent) {x : Transport}
    (hx : x ∈ s.transports) {res : RdmaResources} (hres : x.rdmaRes = some res) :
    (∀ ctx, res.ctx = some ctx → s.shared.ctx = some ctx) ∧
      ∀ pd, res.pd = some pd → s.shared.pd = some pd := by
  cases hacquired : x.acquired with
  | true =>
      obtain ⟨hctx, hpd⟩ := h.holds x hx res hres hacquired
      rw [← hctx, ← hpd]
      exact ⟨fun _ => id, fun _ => id⟩
  | false =>
      rw [(h.ok x hx).res_eq hacquired hres]
      exact ⟨nofun, nofun⟩

/-- **The transports and the shared resources are consistent in every state of every
run.**  Between two calls a transport is fully up or fully down; the reference count
is the number of transports between `Acquire` and `Release`; the handles are open
exactly when it is positive; and a handle on which a transport has created its
resources is open. -/
theorem shared_consistent (l : List Action) (s : Process)
    (hrun : Lts.Run Step (fun _ _ => True) init l s) :
    (∀ x ∈ s.transports, x.pc = .idle → x.Up ∨ x.Down) ∧
      s.shared.refCount = s.transports.countP (fun x => x.acquired) ∧
      (s.shared.ctx ≠ none ↔ 0 < s.shared.refCount) ∧
      (s.shared.pd ≠ none ↔ 0 < s.shared.refCount) ∧
      ∀ x ∈ s.transports, ∀ res, x.rdmaRes = some res →
        (∀ ctx, res.ctx = some ctx → s.shared.ctx = some ctx) ∧
          ∀ pd, res.pd = some pd → s.shared.pd = some pd := by
  have h : s.Consistent := (Lts.Run.preserve (T := Step) (P := fun _ _ => True) (J := Consistent)
    (Q := fun _ _ => True) (fun hs hstep _ => ⟨hs.step hstep, trivial⟩) consistent_init hrun).2
  exact ⟨fun x hx => (h.ok x hx).idle, h.count, h.isOpen.ctx, h.isOpen.pd,
    fun x hx res => h.handles hx⟩

/-- The calls of `shared_consistent_two`: the first transport connects, and the second
one fails to create its CQ. -/
def twoTransports : List Action :=
  [.create, .connect, .acquire, .init, .init, .init, .init, .init, .setup, .setup, .setup,
    .setup, .setup, .create, .connect, .acquire, .init, .init, .init, .reset, .release]

/-- The first transport is up, the second one down, and there is one user. -/
theorem shared_consistent_two :
    ∃ s : Process, Lts.Run Step (fun _ _ => True) init twoTransports s ∧
      s.shared.refCount = 1 ∧ s.shared.refCount = s.transports.countP (fun x => x.acquired) ∧
      ∀ x ∈ s.transports, x.pc = .idle → x.Up ∨ x.Down := by
  have hrun : ∃ s : Process, Lts.Run Step (fun _ _ => True) init twoTransports s ∧
      s.shared.refCount = 1 := by
    refine ⟨_, .cons (.create true) trivial <|
      .cons (@Step.own _ _ [] _ _ _ _ (.connect rfl rfl)) trivial <|
      .cons (@Step.own _ _ [] _ _ _ _ (@Transport.Step.acquire _ _ ⟨true, some 1, some 2⟩ _ rfl rfl))
        trivial <|
      .cons (@Step.own _ _ [] _ _ _ _ (.init rfl rfl)) trivial <|
      .cons (@Step.own _ _ [] _ _ _ _ (.init rfl rfl)) trivial <|
      .cons (@Step.own _ _ [] _ _ _ _ (.init rfl rfl)) trivial <|
      .cons (@Step.own _ _ [] _ _ _ _ (.init rfl rfl)) trivial <|
      .cons (@Step.own _ _ [] _ _ _ _ (.initLast rfl rfl)) trivial <|
      .cons (@Step.own _ _ [] _ _ _ _ (.setup rfl rfl)) trivial <|
      .cons (@Step.own _ _ [] _ _ _ _ (.setup rfl rfl)) trivial <|
      .cons (@Step.own _ _ [] _ _ _ _ (.setup rfl rfl)) trivial <|
      .cons (@Step.own _ _ [] _ _ _ _ (.setup rfl rfl)) trivial <|
      .cons (@Step.own _ _ [] _ _ _ _ (.setupLast rfl rfl)) trivial <|
      .cons (.create false) trivial <|
      .cons (@Step.own _ _ [] _ _ _ _ (.connect rfl rfl)) trivial <|
      .cons (@Step.own _ _ [] _ _ _ _ (@Transport.Step.acquire _ _ ⟨true, none, none⟩ _ rfl rfl))
        trivial <|
      .cons (@Step.own _ _ [] _ _ _ _ (.init rfl rfl)) trivial <|
      .cons (@Step.own _ _ [] _ _ _ _ (.init rfl rfl)) trivial <|
      .cons (@Step.own _ _ [] _ _ _ _ (.initFail rfl)) trivial <|
      .cons (@Step.own _ _ [] _ _ _ _ (.reset rfl)) trivial <|
      .cons (@Step.own _ _ [] _ _ _ _ (.release rfl)) trivial (.nil _), rfl⟩
  obtain ⟨s, hrun, hcount⟩ := hrun
  obtain ⟨hupdown, husers, -⟩ := shared_consistent _ s hrun
  exact ⟨s, hrun, hcount, husers, hupdown⟩

end Process

end MiniCcl.RdmaShared
