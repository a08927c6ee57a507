/-
MiniCcl/BootstrapEnds.lean

`Bootstrap::Run` ends on all ranks.

Every step of the master takes it through its loops and every step of a worker takes it
on, so what is left to do bounds the length of every run.  A state without a next step is
one in which all ranks have returned the table.  So every run is a part of one that gives
the table to all ranks, however the workers are scheduled (`bootstrap_completes`).
-/
import MiniCcl.BootstrapRun
import MiniCcl.InitTransportsPairs

namespace MiniCcl.Bootstrap

open Utils Function

/-! ### What is left to do -/

/-- What is left to do for `RunMaster`: a loop over the workers for each of its phases. -/
def MasterPc.remaining (worldSize : ℕ) : MasterPc → ℕ
  | start => 4 * worldSize + 4
  | accepting workerSocks => 3 * worldSize + 3 + (worldSize - workerSocks.length)
  | receiving _ rest _ => 2 * worldSize + 2 + rest.length
  | broadcasting _ rest _ => worldSize + 1 + rest.length
  | returned _ => 0
  | fault => 0

def WorkerPc.remaining : WorkerPc → ℕ
  | start => 3
  | connected => 2
  | waiting => 1
  | returned _ => 0
  | fault => 0

def State.remaining (worldSize : ℕ) (s : State) : ℕ :=
  s.master.remaining worldSize + ∑ r ∈ Finset.range worldSize, (s.worker r).pc.remaining

section Step

variable {worldSize r : ℕ} {info : ℕ → NodeInfo} {s t : State} {a : Action}

/-- The master goes on, and no worker does. -/
theorem remaining_lt_of_master (h : t.master.remaining worldSize < s.master.remaining worldSize)
    (hpc : ∀ q, (t.worker q).pc = (s.worker q).pc) :
    t.remaining worldSize < s.remaining worldSize := by
  rw [State.remaining, State.remaining, Finset.sum_congr rfl fun q _ => by rw [hpc q]]
  exact Nat.add_lt_add_right h _

/-- A worker goes on, and the master does not. -/
theorem remaining_lt_of_worker (hr : IsWorker worldSize r) {w : Worker}
    (h : w.pc.remaining < (s.worker r).pc.remaining) (hmaster : t.master = s.master)
    (hworker : t.worker = update s.worker r w) :
    t.remaining worldSize < s.remaining worldSize := by
  rw [State.remaining, State.remaining, hmaster, hworker]
  exact Nat.add_lt_add_left (InitTransports.sum_update_lt (Finset.mem_range.mpr hr.2) s.worker
    (fun _ w => w.pc.remaining) h) _

/-- What the master does with the streams of a worker does not take the worker on. -/
theorem pc_setWorker (s : State) {w : Worker} (h : w.pc = (s.worker r).pc) (q : ℕ) :
    ((s.setWorker r w).worker q).pc = (s.worker q).pc := by
  by_cases hq : q = r
  · subst hq
    rw [setWorker_worker, h]
  · rw [setWorker_worker_of_ne hq]

theorem length_of_perm {done rest : List ℕ} (h : (done ++ rest).Perm (workers worldSize)) :
    done.length + rest.length = worldSize - 1 := by
  rw [← List.length_append, h.length_eq, workers, List.length_range']

/-- **Every step leaves less to do.** -/
theorem Inv.remaining_lt (hn : 1 ≤ worldSize) (hinfo : Sendable worldSize info)
    (h : Inv worldSize info s) (hstep : Step worldSize info s a t) :
    t.remaining worldSize < s.remaining worldSize := by
  have hnext := h.step hn hinfo hstep
  cases hstep with
  | listen hm =>
      refine remaining_lt_of_master ?_ fun _ => rfl
      rw [hm]
      simp only [MasterPc.remaining, List.length_nil]
      omega
  | connect hr hpc hlisten =>
      refine remaining_lt_of_worker hr ?_ rfl rfl
      rw [hpc]
      exact Nat.lt_succ_self _
  | accept hm hmore hr =>
      refine remaining_lt_of_master ?_ fun _ => rfl
      rw [hm]
      simp only [MasterPc.remaining, List.length_append, List.length_singleton]
      omega
  | @acceptedAll _ socks hm hmore =>
      -- the loop that receives goes over as many connections as there are workers
      have hlen := length_of_perm hnext.2.1
      rw [List.length_nil] at hlen
      refine remaining_lt_of_master ?_ fun _ => rfl
      rw [hm]
      simp only [MasterPc.remaining]
      omega
  | sendNodeInfo hr hpc =>
      refine remaining_lt_of_worker hr ?_ rfl rfl
      rw [hpc]
      exact Nat.lt_succ_self _
  | @recvNodeInfo _ r received rest allNodes buffer up node hm hrecv hnode hin =>
      refine remaining_lt_of_master ?_ (pc_setWorker _ rfl)
      rw [setWorker_master, hm]
      exact Nat.lt_succ_self _
  | recvNodeInfoFault hm hrecv hnode => exact hnext.elim
  | @receivedAll _ received allNodes hm =>
      have hlen := length_of_perm hnext.2.1
      rw [List.length_nil] at hlen
      refine remaining_lt_of_master ?_ fun _ => rfl
      rw [hm]
      simp only [MasterPc.remaining, List.length_nil]
      omega
  | broadcast hm =>
      refine remaining_lt_of_master ?_ (pc_setWorker _ rfl)
      rw [setWorker_master, hm]
      exact Nat.lt_succ_self _
  | broadcastAll hm =>
      refine remaining_lt_of_master ?_ fun _ => rfl
      rw [hm]
      simp only [MasterPc.remaining]
      omega
  | recvAllNodes hr hpc hrecv hnodes =>
      refine remaining_lt_of_worker hr ?_ rfl rfl
      rw [hpc]
      exact Nat.zero_lt_one
  | recvAllNodesFault hr hpc hrecv hnodes =>
      refine remaining_lt_of_worker hr ?_ rfl rfl
      rw [hpc]
      exact Nat.zero_lt_one

/-- No run is longer than what is left to do at its start. -/
theorem length_run_le (hn : 1 ≤ worldSize) (hinfo : Sendable worldSize info) {l : List Action}
    (h : Lts.Run (Step worldSize info) (fun _ _ => True) State.init l s) :
    l.length ≤ State.init.remaining worldSize := by
  have hle := h.length_add_le (J := Inv worldSize info) (f := State.remaining worldSize)
    (fun hinv hstep _ => ⟨hinv.step hn hinfo hstep, hinv.remaining_lt hn hinfo hstep⟩) inv_init
  exact (Nat.le_add_right _ _).trans hle

/-- From every state that can be reached, all ranks can return the table. -/
theorem exists_all_returned (hn : 1 ≤ worldSize) (hinfo : Sendable worldSize info)
    (h : (Step worldSize info).Reaches State.init s) :
    ∃ l t, Lts.Run (Step worldSize info) (fun _ _ => True) s l t ∧
      ∀ r < worldSize, t.returned r = some (table worldSize info) := by
  have hinv := inv_of_reaches hn hinfo h
  obtain ⟨l, t, hrun, hstuck⟩ := Lts.Run.exists_stuck (T := Step worldSize info)
    (P := fun _ _ => True) (J := Inv worldSize info) (f := State.remaining worldSize)
    (fun hinv hstep _ => ⟨hinv.step hn hinfo hstep, hinv.remaining_lt hn hinfo hstep⟩) hinv
  have hend := inv_of_reaches hn hinfo (h.trans hrun.reaches)
  exact ⟨l, t, hrun, fun r hr =>
    hend.returned_of_terminal hinfo (fun a u hstep => hstuck a u hstep trivial) hr⟩

end Step

/-- **Bootstrap ends on all ranks**: no run is longer than a bound, and every run can go on
until each rank has returned the table of what the ranks passed in. -/
theorem bootstrap_completes {worldSize : ℕ} (hn : 1 ≤ worldSize) {ip : ℕ → List UInt8}
    {dataPort : ℕ → BitVec 16} (hip : ∀ r < worldSize, (ip r).length < 2 ^ 31)
    (hframe : (encodeAllNodes (table worldSize (nodeInfo ip dataPort))).length < 2 ^ 32) :
    ∃ bound, ∀ l s,
      Lts.Run (Step worldSize (nodeInfo ip dataPort)) (fun _ _ => True) State.init l s →
        l.length ≤ bound ∧ ∃ rest t,
          Lts.Run (Step worldSize (nodeInfo ip dataPort)) (fun _ _ => True) s rest t ∧
          ∀ r < worldSize, t.returned r = some (table worldSize (nodeInfo ip dataPort)) := by
  have hinfo := sendable_nodeInfo hip hframe
  refine ⟨State.init.remaining worldSize, fun l s hrun => ⟨length_run_le hn hinfo hrun, ?_⟩⟩
  exact exists_all_returned hn hinfo hrun.reaches

/-- Two ranks with the address `::1`. -/
theorem bootstrap_completes_two :
    ∃ l t, Lts.Run (Step 2 (nodeInfo (fun _ => [58, 58, 49]) fun _ => 80)) (fun _ _ => True)
        State.init l t ∧
      ∀ r < 2, t.returned r = some [⟨0, [58, 58, 49], 80⟩, ⟨1, [58, 58, 49], 80⟩] := by
  have hip : ∀ r < 2, ((fun _ => [58, 58, 49] : ℕ → List UInt8) r).length < 2 ^ 31 := by
    intro r _
    show 3 < 2 ^ 31
    decide
  have hframe : (encodeAllNodes (table 2 (nodeInfo (fun _ => [58, 58, 49]) fun _ => 80))).length
      < 2 ^ 32 := by decide
  obtain ⟨_, hall⟩ := bootstrap_completes (by decide) hip hframe
  exact (hall [] State.init (.nil _)).2

end MiniCcl.Bootstrap
