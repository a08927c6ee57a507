/-
MiniCcl/RdmaPolling.lean

`TransportRdma::PollCompletion` with two callers: a thread inside `Send` and a
thread inside `Recv`, which hold different mutexes and share one CQ.

A caller polls, requests a notification, polls again and blocks in
`ibv_get_cq_event`.  Of verbs the model has this: `ibv_req_notify_cq` arms the CQ;
the next completion appended while it is armed disarms it and queues one event;
`ibv_get_cq_event` blocks until an event is queued and takes it.

The re-poll does not save a thread whose event the other one takes.  A wake-up is
lost exactly if some thread takes the last event while the other one waits on a CQ
that is not armed, or blocks after its notification has been consumed:
`wakeup_iff`.
-/
import MiniCcl.Confluence
import Mathlib.Logic.Function.Basic
import Mathlib.Data.Nat.Notation
import Mathlib.Tactic.ByContra

namespace MiniCcl.TransportRdma

/-! ### The threads and the CQ -/

/-- The thread inside `Send` or the one inside `Recv`. -/
inductive Caller
  | send
  | recv
  deriving DecidableEq, Repr

def Caller.other : Caller → Caller
  | send => recv
  | recv => send

theorem Caller.eq_or_eq_other (t u : Caller) : u = t ∨ u = t.other := by
  cases t <;> cases u <;> simp [other]

theorem Caller.other_ne (t : Caller) : t.other ≠ t := by
  cases t <;> exact Caller.noConfusion

/-- `ibv_wc`: whether the status is `IBV_WC_SUCCESS`, and the `wr_id`. -/
structure WorkCompletion where
  success : Bool
  wrId : ℕ
  deriving DecidableEq, Repr

/-- What `PollCompletion` returns on a completion: false, or true and a buffer ID. -/
def WorkCompletion.result (wc : WorkCompletion) : Option ℕ :=
  if wc.success then some (wc.wrId &&& 0xFFFFFFFF) else none

/-- Where a thread is in `PollCompletion`, or what its last call has returned. -/
inductive PollPc
  | returned (out : Option ℕ)
  | poll
  | reqNotify
  | pollAgain
  | getEvent
  deriving DecidableEq, Repr

structure Polling where
  cq : List WorkCompletion
  /-- A notification has been requested and not been delivered. -/
  armed : Bool
  /-- The events queued on `comp_channel`. -/
  events : ℕ
  pc : Caller → PollPc

namespace Polling

/-- After `InitRdmaResources`. -/
def init : Polling where
  cq := []
  armed := false
  events := 0
  pc _ := .returned none

/-- The thread `t` goes on at `pc`. -/
def goto (s : Polling) (t : Caller) (pc : PollPc) : Polling :=
  { s with pc := Function.update s.pc t pc }

/-- A completion is appended. -/
def arrived (s : Polling) (wc : WorkCompletion) : Polling :=
  { s with
    cq := s.cq ++ [wc]
    armed := false
    events := if s.armed then s.events + 1 else s.events }

@[simp] theorem goto_pc_self (s : Polling) (t : Caller) (pc : PollPc) :
    (s.goto t pc).pc t = pc := Function.update_self ..

@[simp] theorem goto_pc_other (s : Polling) (t : Caller) (pc : PollPc) :
    (s.goto t pc).pc t.other = s.pc t.other := Function.update_of_ne t.other_ne ..

/-! ### Steps -/

inductive Action
  | call (t : Caller)
  | poll (t : Caller)
  | miss (t : Caller)
  | reqNotify (t : Caller)
  | pollAgain (t : Caller)
  | block (t : Caller)
  | getEvent (t : Caller)
  | fail (t : Caller)
  | arrive (wc : WorkCompletion)
  deriving DecidableEq, Repr

/-- The steps of `PollCompletion`, each with one verbs call, and the arrival of
completions.  Any verbs call may fail. -/
inductive Step (enableBusyPolling : Bool) : Lts Polling Action
  | call {s : Polling} {t : Caller} {out : Option ℕ} (h : s.pc t = .returned out) :
      Step enableBusyPolling s (.call t) (s.goto t .poll)
  | poll {s : Polling} {t : Caller} {wc : WorkCompletion} {cq : List WorkCompletion}
      (h : s.pc t = .poll) (hcq : s.cq = wc :: cq) :
      Step enableBusyPolling s (.poll t) ({ s with cq := cq }.goto t (.returned wc.result))
  -- ret == 0: busy polling continues immediately
  | miss {s : Polling} {t : Caller} (h : s.pc t = .poll) (hcq : s.cq = []) :
      Step enableBusyPolling s (.miss t)
        (s.goto t (if enableBusyPolling then .poll else .reqNotify))
  | pollFail {s : Polling} {t : Caller} (h : s.pc t = .poll) :
      Step enableBusyPolling s (.fail t) (s.goto t (.returned none))
  | reqNotify {s : Polling} {t : Caller} (h : s.pc t = .reqNotify) :
      Step enableBusyPolling s (.reqNotify t) ({ s with armed := true }.goto t .pollAgain)
  | reqNotifyFail {s : Polling} {t : Caller} (h : s.pc t = .reqNotify) :
      Step enableBusyPolling s (.fail t) (s.goto t (.returned none))
  -- double-check CQ before blocking
  | pollAgain {s : Polling} {t : Caller} {wc : WorkCompletion} {cq : List WorkCompletion}
      (h : s.pc t = .pollAgain) (hcq : s.cq = wc :: cq) :
      Step enableBusyPolling s (.pollAgain t) ({ s with cq := cq }.goto t (.returned wc.result))
  | block {s : Polling} {t : Caller} (h : s.pc t = .pollAgain) (hcq : s.cq = []) :
      Step enableBusyPolling s (.block t) (s.goto t .getEvent)
  -- the second ibv_poll_cq is not checked for ret < 0
  | pollAgainFail {s : Polling} {t : Caller} (h : s.pc t = .pollAgain) :
      Step enableBusyPolling s (.block t) (s.goto t .getEvent)
  | getEvent {s : Polling} {t : Caller} (h : s.pc t = .getEvent) (hevents : 0 < s.events) :
      Step enableBusyPolling s (.getEvent t) ({ s with events := s.events - 1 }.goto t .poll)
  | getEventFail {s : Polling} {t : Caller} (h : s.pc t = .getEvent) :
      Step enableBusyPolling s (.fail t) (s.goto t (.returned none))
  | arrive {s : Polling} (wc : WorkCompletion) :
      Step enableBusyPolling s (.arrive wc) (s.arrived wc)

/-! ### Lost wake-ups -/

/-- A thread waits for an event, the CQ holds a completion, no event is queued and
the CQ is not armed. -/
def Lost (s : Polling) : Prop :=
  (∃ t, s.pc t = .getEvent) ∧ s.cq ≠ [] ∧ s.events = 0 ∧ s.armed = false

/-- No wake-up is lost, and none will be by the next completion. -/
def NeverLost (s : Polling) : Prop := ¬ s.Lost ∧ ∀ wc, ¬ (s.arrived wc).Lost

/-- The step leaves an event or an armed CQ to a thread that waits: to the other one
if the step takes an event, to its own if it blocks. -/
def KeepsWakeup (s : Polling) : Action → Prop
  | .getEvent t => s.pc t.other = .getEvent → s.armed = true ∨ 1 < s.events
  | .block _ => s.armed = true ∨ 0 < s.events
  | _ => True

/-- Something is going to wake up each thread that waits. -/
def Watched (s : Polling) : Prop := ∀ t, s.pc t = .getEvent → s.armed = true ∨ 0 < s.events

theorem neverLost_iff (s : Polling) : s.NeverLost ↔ s.Watched := by
  constructor
  · rintro ⟨-, hnext⟩ t ht
    -- else a completion would come without an event
    by_contra hnot
    rw [not_or] at hnot
    have harmed : s.armed = false := Bool.eq_false_iff.mpr hnot.1
    apply hnext ⟨true, 0⟩
    refine ⟨⟨t, ht⟩, List.append_ne_nil_of_right_ne_nil _ (List.cons_ne_nil _ _), ?_, rfl⟩
    show (if s.armed then s.events + 1 else s.events) = 0
    rw [harmed]
    exact Nat.eq_zero_of_not_pos hnot.2
  · intro hwatched
    constructor
    · rintro ⟨⟨t, ht⟩, -, hevents, harmed⟩
      rcases hwatched t ht with h | h
      · exact Bool.false_ne_true (harmed.symm.trans h)
      · exact absurd hevents (Nat.ne_zero_of_lt h)
    · rintro wc ⟨⟨t, ht⟩, -, hevents, -⟩
      change (if s.armed then s.events + 1 else s.events) = 0 at hevents
      rcases hwatched t ht with h | h
      · -- the completion queues an event
        rw [h] at hevents
        exact Nat.succ_ne_zero _ hevents
      · split at hevents
        · exact Nat.succ_ne_zero _ hevents
        · exact absurd hevents (Nat.ne_zero_of_lt h)

/-- A thread that moves to a place where it does not wait leaves the other one as
watched as it was. -/
theorem Watched.goto {s : Polling} (h : s.Watched) {t : Caller} {pc : PollPc}
    (hpc : pc ≠ .getEvent) {s' : Polling} (hs' : s'.pc = s.pc)
    (hkeep : s.armed = true ∨ 0 < s.events → s'.armed = true ∨ 0 < s'.events) :
    (s'.goto t pc).Watched := by
  intro u hu
  rcases Caller.eq_or_eq_other t u with rfl | rfl
  · rw [goto_pc_self] at hu
    exact absurd hu hpc
  · rw [goto_pc_other, hs'] at hu
    exact hkeep (h _ hu)

theorem watched_block {s : Polling} (t : Caller) :
    (s.goto t .getEvent).Watched ↔ (s.armed = true ∨ 0 < s.events) := by
  constructor
  · intro hwatched
    exact hwatched t (goto_pc_self ..)
  · intro hkeep u _
    exact hkeep

theorem watched_getEvent {s : Polling} (t : Caller) :
    ({ s with events := s.events - 1 }.goto t .poll).Watched ↔
      (s.pc t.other = .getEvent → s.armed = true ∨ 1 < s.events) := by
  constructor
  · intro hwatched hother
    have h := hwatched t.other (by rw [goto_pc_other]; exact hother)
    exact h.imp id Nat.lt_of_sub_pos
  · intro hkeep u hu
    rcases Caller.eq_or_eq_other t u with rfl | rfl
    · rw [goto_pc_self] at hu
      cases hu
    · rw [goto_pc_other] at hu
      exact (hkeep hu).imp id Nat.sub_pos_of_lt

theorem Watched.arrived {s : Polling} (h : s.Watched) (wc : WorkCompletion) :
    (s.arrived wc).Watched := by
  intro t ht
  right
  show 0 < if s.armed then s.events + 1 else s.events
  split
  · exact Nat.succ_pos _
  · rename_i harmed
    exact (h t ht).resolve_left harmed

/-- A step keeps the threads watched if and only if it satisfies `KeepsWakeup`. -/
theorem Watched.step_iff {s s' : Polling} {a : Action} (h : s.Watched)
    (hstep : Step false s a s') : s'.Watched ↔ s.KeepsWakeup a := by
  cases hstep with
  | call hpc => exact iff_of_true (h.goto PollPc.noConfusion rfl id) trivial
  | poll hpc hcq => exact iff_of_true (h.goto PollPc.noConfusion rfl id) trivial
  | miss hpc hcq => exact iff_of_true (h.goto PollPc.noConfusion rfl id) trivial
  | pollFail hpc => exact iff_of_true (h.goto PollPc.noConfusion rfl id) trivial
  | reqNotify hpc => exact iff_of_true (h.goto PollPc.noConfusion rfl fun _ => .inl rfl) trivial
  | reqNotifyFail hpc => exact iff_of_true (h.goto PollPc.noConfusion rfl id) trivial
  | pollAgain hpc hcq => exact iff_of_true (h.goto PollPc.noConfusion rfl id) trivial
  | block hpc hcq => exact watched_block _
  | pollAgainFail hpc => exact watched_block _
  | getEvent hpc hevents => exact watched_getEvent _
  | getEventFail hpc => exact iff_of_true (h.goto PollPc.noConfusion rfl id) trivial
  | arrive wc => exact iff_of_true (h.arrived wc) trivial

/-- **No wake-up is lost if and only if** no step takes the wake-up of a thread
away. -/
theorem wakeup_iff (l : List Action) (t : Polling) :
    (Lts.Run (Step false) (fun s _ => s.NeverLost) init l t ∧ t.NeverLost)
      ↔ Lts.Run (Step false) KeepsWakeup init l t := by
  refine Lts.Run.keeps_iff (T := Step false) (I := fun _ => True) (J := NeverLost)
    (fun _ _ _ => trivial) ?_ trivial ?_
  · intro s a s' _ hs hstep
    rw [neverLost_iff] at hs ⊢
    exact hs.step_iff hstep
  · rw [neverLost_iff]
    intro t ht
    cases ht

/-- Both threads wait.  Two completions arrive, and the first one queues the event.
`Send` takes it, finds the first completion and returns; `Recv` waits for good. -/
theorem recv_misses_completion :
    ∃ s : Polling, Lts.Run (Step false) (fun _ _ => True) init
        [.call .send, .miss .send, .reqNotify .send, .block .send,
          .call .recv, .miss .recv, .reqNotify .recv, .block .recv,
          .arrive ⟨true, 1⟩, .arrive ⟨true, 2 <<< 32⟩, .getEvent .send, .poll .send] s ∧
      s.pc .send = .returned (some 1) ∧ s.pc .recv = .getEvent ∧ s.Lost := by
  refine ⟨_, .cons (.call rfl) trivial <| .cons (.miss rfl rfl) trivial <|
    .cons (.reqNotify rfl) trivial <| .cons (.block rfl rfl) trivial <|
    .cons (.call rfl) trivial <| .cons (.miss rfl rfl) trivial <|
    .cons (.reqNotify rfl) trivial <| .cons (.block rfl rfl) trivial <|
    .cons (.arrive _) trivial <| .cons (.arrive _) trivial <|
    .cons (.getEvent rfl (by decide)) trivial <| .cons (.poll rfl rfl) trivial (.nil _),
    rfl, rfl, ⟨.recv, rfl⟩, ?_, rfl, rfl⟩
  exact List.cons_ne_nil _ _

end Polling

end MiniCcl.TransportRdma
