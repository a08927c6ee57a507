/-
MiniCcl/BootstrapBlocks.lean

How a bootstrap with failures ends.

Whoever waits for data gets it, or the end of the stream, because a rank that fails closes
its sockets; a worker that cannot connect gives up after its attempts.  Only `accept` knows
no end: a master that waits for a worker which has given up waits forever, and so do the
workers that it has accepted.  All other runs end with all ranks having returned
(`failures_block_iff`), and no run is longer than a bound (`failures_end`).
-/
import MiniCcl.BootstrapFailures

namespace MiniCcl.Bootstrap.Failing

open Utils Function
open scoped List

/-- All ranks have returned. -/
def State.AllReturned (worldSize : ℕ) (s : State) : Prop :=
  (∃ result, s.master = .returned result) ∧
    ∀ r, IsWorker worldSize r → ∃ result, (s.worker r).pc = .returned result

/-- The master waits in `accept`, and whoever it has not accepted has returned. -/
def State.Blocked (worldSize : ℕ) (s : State) : Prop :=
  ∃ socks, s.master = .accepting socks ∧ socks.length < worldSize - 1 ∧ s.pending = [] ∧
    ∀ r, IsWorker worldSize r →
      r ∈ socks ∧ (s.worker r).pc = .waiting ∨ ∃ result, (s.worker r).pc = .returned result

section Step

variable {worldSize r : ℕ} {info : ℕ → NodeInfo} {s t : State} {a : Action}

/-- Then the master has nothing to do. -/
theorem master_idle (hstop : s.AllReturned worldSize ∨ s.Blocked worldSize) :
    (∃ result, s.master = .returned result) ∨
      ∃ socks, s.master = .accepting socks ∧ socks.length < worldSize - 1 ∧ s.pending = [] := by
  rcases hstop with ⟨hm, -⟩ | ⟨socks, hm, hmore, hpending, -⟩
  · exact .inl hm
  · exact .inr ⟨socks, hm, hmore, hpending⟩

namespace Inv

variable (h : Inv worldSize info s)
include h

/-! ### Who can go on -/

/-- A worker that has not returned can go on, unless it waits for what can still come. -/
theorem exists_step_of_worker (hinfo : Sendable worldSize info) (hr : IsWorker worldSize r)
    (hpc : ∀ result, (s.worker r).pc ≠ .returned result)
    (hwaiting : (s.worker r).pc = .waiting →
      recvAll (s.worker r).down ≠ none ∨ s.EndedDown r) :
    ∃ a t, ¬ a.Fault ∧ Step worldSize info s a t := by
  cases hworker : (s.worker r).pc with
  | start => exact ⟨_, _, id, .createSocket hr hworker⟩
  | connecting attempt =>
      cases hlisten : s.listening with
      | true => exact ⟨_, _, id, .connect hr hworker hlisten⟩
      | false => exact ⟨_, _, id, .refused hr hworker hlisten⟩
  | connected => exact ⟨_, _, id, .sendNodeInfo hr hworker⟩
  | waiting =>
      cases hrecv : recvAll (s.worker r).down with
      | some data =>
          obtain ⟨-, -, hdecode⟩ := h.frame_down hinfo hrecv
          exact ⟨_, _, id, .recvAllNodes hr hworker hrecv hdecode⟩
      | none =>
          have hend := (hwaiting hworker).resolve_left fun hne => hne hrecv
          exact ⟨_, _, id, .endOfAllNodes hr hworker hrecv hend⟩
  | closing result => exact ⟨_, _, id, .closeSockfd hr hworker⟩
  | returned result => exact absurd hworker (hpc result)
  | fault => exact absurd hworker (h.worker r).noFault

/-- When the master has returned, no stream to a worker stays open. -/
theorem endedDown_of_returned {result : Option (List NodeInfo)} (hm : s.master = .returned result)
    (hpc : (s.worker r).pc = .waiting) : s.EndedDown r := by
  rcases (h.worker r).met (.inr hpc) with hpending | hopened
  · have hfd := h.listenFd
    rw [h.pending_opened (List.ne_nil_of_mem hpending), hm] at hfd
    refine .inr ⟨hpending, ?_⟩
    show 0 < s.listenFd.closed
    exact Nat.lt_of_lt_of_eq Nat.zero_lt_one hfd
  · have hsock := (h.worker r).workerSock
    rw [hopened, hm] at hsock
    refine .inl ?_
    show 0 < (s.worker r).workerSock.closed
    exact Nat.lt_of_lt_of_eq Nat.zero_lt_one hsock

/-- The master that waits for a `NodeInfo`, or the worker that is to send it, can go on. -/
theorem exists_step_of_receiving (hinfo : Sendable worldSize info) {received rest : List ℕ}
    {allNodes : List NodeInfo} (hm : s.master = .receiving received (r :: rest) allNodes) :
    ∃ a t, ¬ a.Fault ∧ Step worldSize info s a t := by
  have hok := h.master
  rw [hm] at hok
  obtain ⟨hfilled, hperm⟩ := hok
  obtain ⟨hr, -, -⟩ := next_worker hperm
  have hnodup : (received ++ r :: rest).Nodup := hperm.nodup_iff.mpr List.nodup_range'
  have hunread : r ∉ received := fun hmem =>
    List.disjoint_of_nodup_append hnodup hmem List.mem_cons_self
  have hmem : r ∈ s.master.workerSocks := by
    rw [hm]
    exact List.mem_append_right _ List.mem_cons_self
  have hw := h.worker r
  have hopened := (h.opened_of_mem hmem).1
  cases hrecv : recvAll (s.worker r).up with
  | some data =>
      obtain ⟨-, hdata, -⟩ :=
        eq_frame_of_recvAll (length_frame_lt hinfo hr.2) hw.prefix_up hrecv
      have hnode : Bootstrap.recvNodeInfo (some data.1) = .ok (some (info r)) := by
        rw [hdata]
        exact recvNodeInfo_encode (hinfo.ip r hr.2)
      exact ⟨_, _, id, .recvNodeInfo hm hrecv hnode (hfilled.inTable hinfo hr.2)⟩
  | none =>
      by_cases hpc : ∃ result, (s.worker r).pc = .returned result
      · -- the worker has closed its end
        obtain ⟨result, hpc⟩ := hpc
        have hsock := hw.sockfd
        rw [hw.sockfd_opened (.inr hopened), hpc] at hsock
        have hend : s.EndedUp r := Nat.lt_of_lt_of_eq Nat.zero_lt_one hsock
        exact ⟨_, _, id, .endOfNodeInfo hm hrecv hend⟩
      · refine h.exists_step_of_worker hinfo hr (not_exists.mp hpc) fun hwaiting => ?_
        -- a worker that waits has sent its `NodeInfo`
        have hup : (s.worker r).up = sendAll (encodeNodeInfo [] (info r)) := by
          refine hw.up_frame ?_ hwaiting
          rw [hm]
          exact hunread
        rw [hup, hinfo.recvAll_up hr.2] at hrecv
        cases hrecv

/-- **Unless all have returned, or the master waits for a worker that has given up, some
rank can go on.** -/
theorem exists_step (hinfo : Sendable worldSize info) (hreturned : ¬ s.AllReturned worldSize)
    (hblocked : ¬ s.Blocked worldSize) : ∃ a t, ¬ a.Fault ∧ Step worldSize info s a t := by
  cases hm : s.master with
  | start => exact ⟨_, _, id, .createListenSocket hm⟩
  | binding => exact ⟨_, _, id, .listen hm⟩
  | accepting socks =>
      by_cases hmore : socks.length < worldSize - 1
      · cases hpending : s.pending with
        | cons q pending =>
            have hq : q ∈ s.pending := hpending ▸ List.mem_cons_self
            exact ⟨_, _, id, .accept hm hmore hq⟩
        | nil =>
            -- a worker that is neither accepted and waiting nor has returned
            have hworker : ¬ ∀ r, IsWorker worldSize r → r ∈ socks ∧ (s.worker r).pc = .waiting ∨
                ∃ result, (s.worker r).pc = .returned result := fun hall =>
              hblocked ⟨socks, hm, hmore, hpending, hall⟩
            push Not at hworker
            obtain ⟨q, hq, hnot, hpc⟩ := hworker
            refine h.exists_step_of_worker hinfo hq hpc fun hwaiting => .inr (.inl ?_)
            have hsocks : q ∉ socks := fun hmem => hnot hmem hwaiting
            have hopened := ((h.worker q).met (.inr hwaiting)).resolve_left fun hmem => by
              rw [hpending] at hmem
              cases hmem
            have hsock := (h.worker q).workerSock
            rw [hopened, hm] at hsock
            rw [show (MasterPc.accepting socks).workerSocks = socks from rfl,
              List.count_eq_zero_of_not_mem hsocks] at hsock
            exact Nat.lt_of_lt_of_eq Nat.zero_lt_one hsock
      · exact ⟨_, _, id, .acceptedAll hm hmore⟩
  | receiving received rest allNodes =>
      cases rest with
      | nil => exact ⟨_, _, id, .receivedAll hm⟩
      | cons q rest => exact h.exists_step_of_receiving hinfo hm
  | broadcasting sent rest allNodes =>
      cases rest with
      | nil => exact ⟨_, _, id, .broadcastAll hm⟩
      | cons q rest => exact ⟨_, _, id, .broadcast hm⟩
  | closing socks result =>
      cases socks with
      | nil => exact ⟨_, _, id, .closeListenFd hm⟩
      | cons q socks => exact ⟨_, _, id, .closeWorkerSock hm⟩
  | returned result =>
      have hworker : ¬ ∀ r, IsWorker worldSize r → ∃ result, (s.worker r).pc = .returned result :=
        fun hall => hreturned ⟨⟨result, hm⟩, hall⟩
      push Not at hworker
      obtain ⟨q, hq, hpc⟩ := hworker
      exact h.exists_step_of_worker hinfo hq hpc fun hwaiting =>
        .inr (h.endedDown_of_returned hm hwaiting)
  | fault =>
      have hok := h.master
      rw [hm] at hok
      exact hok.elim

/-! ### Who cannot -/

/-- A worker has nothing to do: it has returned, or waits while nothing comes. -/
theorem worker_idle (hstop : s.AllReturned worldSize ∨ s.Blocked worldSize)
    (hr : IsWorker worldSize r) :
    (∃ result, (s.worker r).pc = .returned result) ∨
      (s.worker r).pc = .waiting ∧ (s.worker r).down = [] ∧ ¬ s.EndedDown r := by
  rcases hstop with ⟨-, hall⟩ | ⟨socks, hm, -, hpending, hall⟩
  · exact .inl (hall r hr)
  · rcases hall r hr with ⟨hmem, hpc⟩ | hpc
    · have hsock : r ∈ s.master.workerSocks := by
        rw [hm]
        exact hmem
      refine .inr ⟨hpc, (h.worker r).down_nil (by rw [hm]; trivial), ?_⟩
      rintro (hclosed | ⟨hmem, -⟩)
      · rw [(h.opened_of_mem hsock).2] at hclosed
        exact absurd hclosed (Nat.lt_irrefl 0)
      · rw [hpending] at hmem
        cases hmem
    · exact .inl hpc

/-- Then nobody goes on. -/
theorem not_step_of_stopped (hstop : s.AllReturned worldSize ∨ s.Blocked worldSize)
    (ha : ¬ a.Fault) : ¬ Step worldSize info s a t := by
  intro hstep
  have hworker : ∀ {q : ℕ}, IsWorker worldSize q →
      (∀ result, (s.worker q).pc ≠ .returned result) →
      (s.worker q).pc = .waiting ∧ (s.worker q).down = [] ∧ ¬ s.EndedDown q := fun hq hpc =>
    (h.worker_idle hstop hq).resolve_left (not_exists.mpr hpc)
  have hnot : ∀ {q : ℕ} {pc : WorkerPc}, IsWorker worldSize q → (s.worker q).pc = pc →
      (∀ result, pc ≠ .returned result) → pc ≠ .waiting → False := by
    rintro q _ hq rfl hreturned hwaiting
    exact hwaiting (hworker hq hreturned).1
  cases hstep with
  | createListenSocket hm | listen hm | recvNodeInfo hm | recvNodeInfoFault hm
  | endOfNodeInfo hm | receivedAll hm | broadcast hm | broadcastAll hm | closeWorkerSock hm
  | closeListenFd hm =>
      rcases master_idle hstop with ⟨_, hidle⟩ | ⟨_, hidle, -⟩
      · rw [hidle] at hm
        cases hm
      · rw [hidle] at hm
        cases hm
  | accept hm hmore hr =>
      rcases master_idle hstop with ⟨_, hidle⟩ | ⟨_, -, -, hpending⟩
      · rw [hidle] at hm
        cases hm
      · rw [hpending] at hr
        cases hr
  | acceptedAll hm hmore =>
      rcases master_idle hstop with ⟨_, hidle⟩ | ⟨_, hidle, hlt, -⟩
      · rw [hidle] at hm
        cases hm
      · rw [hidle] at hm
        cases hm
        exact hmore hlt
  | createSocket hr hpc | connect hr hpc | refused hr hpc | sendNodeInfo hr hpc
  | closeSockfd hr hpc =>
      exact hnot hr hpc (fun _ => WorkerPc.noConfusion) WorkerPc.noConfusion
  | recvAllNodes hr hpc hrecv | recvAllNodesFault hr hpc hrecv =>
      rw [(hworker hr fun _ => by rw [hpc]; exact WorkerPc.noConfusion).2.1, recvAll_nil] at hrecv
      cases hrecv
  | endOfAllNodes hr hpc hrecv hend =>
      exact (hworker hr fun _ => by rw [hpc]; exact WorkerPc.noConfusion).2.2 hend
  | failMaster | failBroadcast | failWorker | failConnect | failSend | dieMaster | dieWorker =>
      exact ha trivial

end Inv

/-! ### What is left to do -/

/-- What is left to do for `RunMaster`: its loops over the workers, and the descriptors that
it has to close. -/
def MasterPc.left (worldSize : ℕ) : MasterPc → ℕ
  | start => 4 * worldSize + 8
  | binding => 4 * worldSize + 7
  | accepting socks => 3 * worldSize + 6 + (worldSize - socks.length)
  | receiving received rest _ => 2 * (received.length + rest.length) + rest.length + 5
  | broadcasting sent rest _ => (sent.length + rest.length) + rest.length + 3
  | closing socks _ => socks.length + 1
  | returned _ => 0
  | fault => 0

/-- What is left to do for `RunWorker`, with all attempts to connect. -/
def WorkerPc.left : WorkerPc → ℕ
  | start => 34
  | connecting attempt => 33 - attempt.val
  | connected => 3
  | waiting => 2
  | closing _ => 1
  | returned _ => 0
  | fault => 0

def State.left (worldSize : ℕ) (s : State) : ℕ :=
  s.master.left worldSize + ∑ r ∈ Finset.range worldSize, (s.worker r).pc.left

/-- The master goes on, and no worker does. -/
theorem left_lt_of_master (hlt : t.master.left worldSize < s.master.left worldSize)
    (hpc : ∀ q, (t.worker q).pc = (s.worker q).pc) : t.left worldSize < s.left worldSize := by
  rw [State.left, State.left, Finset.sum_congr rfl fun q _ => by rw [hpc q]]
  exact Nat.add_lt_add_right hlt _

/-- A worker goes on, and the master does not. -/
theorem left_lt_of_worker (hr : IsWorker worldSize r) {w : Worker}
    (hlt : w.pc.left < (s.worker r).pc.left) (hmaster : t.master = s.master)
    (hworker : t.worker = update s.worker r w) : t.left worldSize < s.left worldSize := by
  rw [State.left, State.left, hmaster, hworker]
  exact Nat.add_lt_add_left (InitTransports.sum_update_lt (Finset.mem_range.mpr hr.2) s.worker
    (fun _ w => w.pc.left) hlt) _

/-- What the master does with a connection does not take the worker on. -/
theorem pc_setWorker (s : State) {w : Worker} (hpc : w.pc = (s.worker r).pc) (q : ℕ) :
    ((s.setWorker r w).worker q).pc = (s.worker q).pc := by
  by_cases hq : q = r
  · subst hq
    rw [setWorker_worker, hpc]
  · rw [setWorker_worker_of_ne hq]

theorem WorkerPc.left_afterAttempt (attempt : Fin 30) :
    (afterAttempt attempt).left < (connecting attempt).left := by
  rw [afterAttempt]
  split
  · show 33 - (attempt.val + 1) < 33 - attempt.val
    omega
  · show 1 < 33 - attempt.val
    omega

theorem WorkerPc.left_afterFailure {pc pc' : WorkerPc} (h : pc.afterFailure = some pc') :
    pc'.left < pc.left := by
  cases pc with
  | start =>
      cases h
      exact Nat.succ_pos 33
  | connecting attempt =>
      rw [afterFailure] at h
      split at h
      · cases h
        show 1 < 33 - attempt.val
        omega
      · cases h
  | waiting =>
      cases h
      exact Nat.lt_succ_self 1
  | connected | closing | returned | fault => cases h

theorem MasterPc.left_afterFailure {pc pc' : MasterPc} (h : pc.afterFailure worldSize = some pc') :
    pc'.left worldSize < pc.left worldSize := by
  cases pc with
  | start =>
      cases h
      exact Nat.succ_pos _
  | binding =>
      cases h
      show 1 < 4 * worldSize + 7
      omega
  | accepting socks =>
      rw [afterFailure] at h
      split at h
      · cases h
        show socks.length + 1 < 3 * worldSize + 6 + (worldSize - socks.length)
        omega
      · cases h
  | receiving received rest allNodes =>
      cases rest with
      | nil => cases h
      | cons r rest =>
          cases h
          simp only [left, List.length_append, List.length_cons]
          omega
  | broadcasting | closing | returned | fault => cases h

/-- **Every step leaves less to do.** -/
theorem Inv.left_lt (h : Inv worldSize info s) (hn : 1 ≤ worldSize)
    (hinfo : Sendable worldSize info) (hstep : Step worldSize info s a t) :
    t.left worldSize < s.left worldSize := by
  have hnext := h.step hn hinfo hstep
  cases hstep with
  | createListenSocket hm | listen hm | broadcastAll hm | closeListenFd hm | receivedAll hm =>
      refine left_lt_of_master ?_ fun _ => rfl
      rw [hm]
      simp only [MasterPc.left, List.length_nil]
      omega
  | accept hm hmore hr =>
      refine left_lt_of_master ?_ (pc_setWorker _ rfl)
      rw [setWorker_master, hm]
      simp only [MasterPc.left, List.length_append, List.length_singleton]
      omega
  | @acceptedAll _ socks hm hmore =>
      -- as many connections as there are workers
      have hlen := length_of_perm hnext.master.2
      rw [List.length_nil] at hlen
      refine left_lt_of_master ?_ fun _ => rfl
      rw [hm]
      simp only [MasterPc.left, List.length_nil]
      omega
  | recvNodeInfo hm hrecv hnode hin =>
      refine left_lt_of_master ?_ (pc_setWorker _ rfl)
      rw [setWorker_master, hm]
      simp only [MasterPc.left, List.length_append, List.length_cons, List.length_nil]
      omega
  | recvNodeInfoFault hm hrecv hnode => exact hnext.master.elim
  | endOfNodeInfo hm hrecv hend =>
      refine left_lt_of_master ?_ fun _ => rfl
      rw [hm]
      simp only [MasterPc.left, List.length_append, List.length_cons]
      omega
  | broadcast hm | failBroadcast hm hpart hlt =>
      refine left_lt_of_master ?_ (pc_setWorker _ rfl)
      rw [setWorker_master, hm]
      simp only [MasterPc.left, List.length_append, List.length_cons, List.length_nil]
      omega
  | closeWorkerSock hm =>
      refine left_lt_of_master ?_ (pc_setWorker _ rfl)
      rw [setWorker_master, hm]
      exact Nat.lt_succ_self _
  | createSocket hr hpc | connect hr hpc | sendNodeInfo hr hpc | recvAllNodes hr hpc
  | recvAllNodesFault hr hpc | endOfAllNodes hr hpc | closeSockfd hr hpc | failSend hr hpc =>
      refine left_lt_of_worker hr ?_ rfl rfl
      rw [hpc]
      simp only [WorkerPc.left]
      omega
  | refused hr hpc hlisten =>
      refine left_lt_of_worker hr ?_ rfl rfl
      rw [hpc]
      exact WorkerPc.left_afterAttempt _
  | failConnect hr hpc =>
      refine left_lt_of_worker hr ?_ rfl rfl
      rw [hpc]
      exact WorkerPc.left_afterAttempt _
  | failMaster hm => exact left_lt_of_master (MasterPc.left_afterFailure hm) fun _ => rfl
  | failWorker hr hpc => exact left_lt_of_worker hr (WorkerPc.left_afterFailure hpc) rfl rfl
  | dieMaster hm =>
      refine left_lt_of_master ?_ fun _ => rfl
      show 0 < s.master.left worldSize
      cases hmaster : s.master with
      | returned result => exact absurd hmaster (hm result)
      | fault =>
          have hok := h.master
          rw [hmaster] at hok
          exact hok.elim
      | _ =>
          simp only [MasterPc.left]
          omega
  | @dieWorker _ r hr hpc =>
      refine left_lt_of_worker hr ?_ rfl rfl
      show 0 < (s.worker r).pc.left
      cases hworker : (s.worker r).pc with
      | returned result => exact absurd hworker (hpc result)
      | fault => exact absurd hworker (h.worker r).noFault
      | connecting attempt =>
          show 0 < 33 - attempt.val
          omega
      | _ => exact Nat.succ_pos _

end Step

/-! ### How it ends -/

section Results

variable {worldSize : ℕ} (hn : 1 ≤ worldSize) {ip : ℕ → List UInt8} {dataPort : ℕ → BitVec 16}
  (hip : ∀ r < worldSize, (ip r).length < 2 ^ 31)
  (hframe : (encodeAllNodes (table worldSize (nodeInfo ip dataPort))).length < 2 ^ 32)
include hn hip hframe

/-- A rank that could go on would do so without a failure. -/
theorem stopped_of_stuck {s : State}
    (h : (Step worldSize (nodeInfo ip dataPort)).Reaches State.init s)
    (hstuck : ∀ a t, ¬ a.Fault → ¬ Step worldSize (nodeInfo ip dataPort) s a t) :
    s.AllReturned worldSize ∨ s.Blocked worldSize := by
  have hinfo := sendable_nodeInfo hip hframe
  by_contra hnot
  obtain ⟨hreturned, hblocked⟩ := not_or.mp hnot
  obtain ⟨a, t, ha, hstep⟩ :=
    (inv_of_reaches hn hinfo h).exists_step hinfo hreturned hblocked
  exact hstuck a t ha hstep

/-- **No rank can go on exactly if all have returned, or the master waits in `accept` for
workers that have given up**, together with the workers that it has accepted. -/
theorem failures_block_iff {s : State}
    (h : (Step worldSize (nodeInfo ip dataPort)).Reaches State.init s) :
    (∀ a t, ¬ a.Fault → ¬ Step worldSize (nodeInfo ip dataPort) s a t) ↔
      s.AllReturned worldSize ∨ s.Blocked worldSize := by
  have hinv := inv_of_reaches hn (sendable_nodeInfo hip hframe) h
  constructor
  · exact stopped_of_stuck hn hip hframe h
  · exact fun hstop a t ha => hinv.not_step_of_stopped hstop ha

/-- **No run is longer than a bound**, and each can go on, without another failure, until
all ranks have returned or the master waits in vain. -/
theorem failures_end : ∃ bound, ∀ l s,
    Lts.Run (Step worldSize (nodeInfo ip dataPort)) (fun _ _ => True) State.init l s →
      l.length ≤ bound ∧ ∃ rest t,
        Lts.Run (Step worldSize (nodeInfo ip dataPort)) (fun _ a => ¬ a.Fault) s rest t ∧
        (t.AllReturned worldSize ∨ t.Blocked worldSize) := by
  have hinfo := sendable_nodeInfo hip hframe
  refine ⟨State.init.left worldSize, fun l s hrun => ⟨?_, ?_⟩⟩
  · have hle := hrun.length_add_le (J := Inv worldSize (nodeInfo ip dataPort))
      (f := State.left worldSize)
      (fun hinv hstep _ => ⟨hinv.step hn hinfo hstep, hinv.left_lt hn hinfo hstep⟩) inv_init
    exact (Nat.le_add_right _ _).trans hle
  · have hinv := inv_of_reaches hn hinfo hrun.reaches
    obtain ⟨rest, t, hrest, hstuck⟩ := Lts.Run.exists_stuck
      (T := Step worldSize (nodeInfo ip dataPort)) (P := fun _ a => ¬ a.Fault)
      (J := Inv worldSize (nodeInfo ip dataPort)) (f := State.left worldSize)
      (fun hinv hstep _ => ⟨hinv.step hn hinfo hstep, hinv.left_lt hn hinfo hstep⟩) hinv
    refine ⟨rest, t, hrest, stopped_of_stuck hn hip hframe
      (hrun.reaches.trans hrest.reaches) ?_⟩
    exact fun a u ha hstep => hstuck a u hstep ha

end Results

/-- The worker gives up at once, and the master waits for it. -/
theorem failures_block_two : ∃ s : State, (Step 2 twoRanks).Reaches State.init s ∧
    s.master = .accepting [] ∧ ∀ a t, ¬ a.Fault → ¬ Step 2 twoRanks s a t := by
  have hr : IsWorker 2 1 := ⟨by decide, by decide⟩
  have hrun : ∃ s : State, (Step 2 twoRanks).Reaches State.init s ∧
      s.master = .accepting [] ∧ s.pending = [] ∧ (s.worker 1).pc = .returned none :=
    ⟨_, .head ⟨_, .failWorker hr rfl⟩ <| .head ⟨_, .createListenSocket rfl⟩ <|
      .single ⟨_, .listen rfl⟩, rfl, rfl, rfl⟩
  obtain ⟨s, hs, hmaster, hpending, hworker⟩ := hrun
  refine ⟨s, hs, hmaster, ?_⟩
  refine (failures_block_iff (by decide) length_ip_two length_frame_two hs).mpr (.inr ?_)
  refine ⟨[], hmaster, by decide, hpending, fun r hr => .inr ⟨none, ?_⟩⟩
  obtain rfl : r = 1 := by
    have hlt := hr.2
    have hpos := hr.1
    omega
  exact hworker

theorem failures_end_two : ∃ l t,
    Lts.Run (Step 2 twoRanks) (fun _ a => ¬ a.Fault) State.init l t ∧
      (t.AllReturned 2 ∨ t.Blocked 2) := by
  obtain ⟨_, hall⟩ := failures_end (by decide) length_ip_two length_frame_two
  exact (hall [] State.init (.nil _)).2

end MiniCcl.Bootstrap.Failing
