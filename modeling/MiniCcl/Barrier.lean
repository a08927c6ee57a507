/-
MiniCcl/Barrier.lean

`Barrier` separates phases.

Every rank calls `Barrier` as often as it likes, and counts its calls when it enters
them and when they return.  The token of one round of one call cannot be told from
that of another, but they can be counted.  On the ring, a rank after 0 has passed on
at most as many tokens as it has received, rank 0 at most one more, and a rank that
has entered `k` calls has passed on at most `2 * k`.  In the full mesh rank 0 answers
a call after it has heard from everyone as often.
-/
import MiniCcl.History
import MiniCcl.TopologyFactory

namespace MiniCcl

open Prog

/-! ### Ranks that call `Barrier` and count -/

namespace Barrier

/-- The counter of the calls that a rank has entered. -/
def entered : Buf := .user 0

/-- The counter of the calls that have returned. -/
def returned : Buf := .user 1

def bump (counter : Buf) (m : RankMem ℕ) : RankMem ℕ :=
  m.write ⟨counter, 0, 1⟩ [m counter 0 + 1]

/-- One call, and what a rank counts. -/
def counted (barrier : RankProg ℕ) : RankProg ℕ :=
  act (bump entered) (barrier.bind fun _ => doAct (bump returned))

/-- `k` calls in a row, whatever they return. -/
def calls (k : ℕ) (barrier : RankProg ℕ) : RankProg ℕ :=
  inTurn (List.replicate k (counted barrier))

/-- Rank `r` calls `Barrier` `k r` times. -/
def prog (topology : TopologyType) (worldSize : ℕ) (k : ℕ → ℕ) (r : ℕ) : RankProg ℕ :=
  calls (k r) (topology.call worldSize r (topology.neighborComm worldSize r) .barrier)

/-! ### The actions of a rank -/

def sendTo (j : ℕ) : Local ℕ Buf ℕ := .xfer ⟨.send, j, ⟨.dummy, 0, 1⟩, 4⟩

def recvFrom (i : ℕ) : Local ℕ Buf ℕ := .xfer ⟨.recv, i, ⟨.dummy, 0, 1⟩, 4⟩

def enter : Local ℕ Buf ℕ := .act (bump entered)

def leave : Local ℕ Buf ℕ := .act (bump returned)

/-- One call, given its transfers. -/
def callActions (xfers : List (Local ℕ Buf ℕ)) : List (Local ℕ Buf ℕ) :=
  enter :: xfers ++ [leave]

@[simp] theorem sent_sendTo (j j' : ℕ) : (sendTo j).sent j' = if j' = j then 1 else 0 :=
  Local.sent_of_send rfl j'

@[simp] theorem sent_recvFrom (i j' : ℕ) : (recvFrom i).sent j' = 0 := Local.sent_of_recv rfl j'

@[simp] theorem received_recvFrom (i i' : ℕ) :
    (recvFrom i).received i' = if i' = i then 1 else 0 :=
  Local.received_of_recv rfl i'

@[simp] theorem received_sendTo (j i' : ℕ) : (sendTo j).received i' = 0 :=
  Local.received_of_send rfl i'

@[simp] theorem sent_enter (j : ℕ) : enter.sent j = 0 := rfl

@[simp] theorem sent_leave (j : ℕ) : leave.sent j = 0 := rfl

@[simp] theorem received_enter (i : ℕ) : enter.received i = 0 := rfl

@[simp] theorem received_leave (i : ℕ) : leave.received i = 0 := rfl

@[simp] theorem gain_enter : enter.gain entered = 1 := rfl

@[simp] theorem gain_leave : leave.gain returned = 1 := rfl

theorem bump_self (b : Buf) (m : RankMem ℕ) : bump b m b 0 = m b 0 + 1 := by
  rw [bump, Mem.write_of_has ⟨rfl, le_rfl, Nat.zero_lt_one⟩]
  rfl

theorem bump_of_ne {b b' : Buf} (h : b' ≠ b) (m : RankMem ℕ) : bump b m b' 0 = m b' 0 :=
  Mem.write_of_not_has fun hhas => h hhas.1

/-- The transfers of one ring: rank 0 sends first. -/
def roundXfers (worldSize rank : ℕ) : List (Local ℕ Buf ℕ) :=
  let prev := TopologyRing.getPrevRank worldSize rank
  let next := TopologyRing.getNextRank worldSize rank
  if rank = 0 then [sendTo next, recvFrom prev] else [recvFrom prev, sendTo next]

/-- The transfers of one call. -/
def xfers (topology : TopologyType) (worldSize rank : ℕ) : List (Local ℕ Buf ℕ) :=
  match topology with
  | .ring => roundXfers worldSize rank ++ roundXfers worldSize rank
  | .fullMesh =>
      let peers := List.range' 1 (worldSize - 1)
      if rank = 0 then peers.map recvFrom ++ peers.map sendTo else [sendTo 0, recvFrom 0]

/-- What rank `r` does when it calls `Barrier` `k r` times. -/
def actions (topology : TopologyType) (worldSize : ℕ) (k : ℕ → ℕ) (r : ℕ) :
    List (Local ℕ Buf ℕ) :=
  if r < worldSize then
    (List.replicate (k r) (callActions (xfers topology worldSize r))).flatten
  else []

section Performs

variable {topology : TopologyType} {n r : ℕ} (hn : 2 ≤ n) (hr : r < n)

theorem performs_calls {barrier : RankProg ℕ} {l : List (Local ℕ Buf ℕ)}
    (h : Performs [] barrier l) (k : ℕ) :
    Performs [] (calls k barrier) (List.replicate k (callActions l)).flatten := by
  have hcall : Performs [] (counted barrier) (callActions l) :=
    .act (h.bind (.doAct (bump returned)))
  unfold calls
  induction k with
  | zero => exact .done
  | succ k ih => exact hcall.bind ih

include hn hr

theorem performs_barrier :
    Performs [] (topology.call n r (topology.neighborComm n r) .barrier) (xfers topology n r) := by
  cases topology with
  | ring =>
      have hperforms := TopologyRing.performs_barrier (α := ℕ) hn hr
      rw [TopologyRing.barrierScript, Script.project_append, TopologyRing.barrierRoundScript,
        TopologyRing.project_hops_range hn hr] at hperforms
      exact hperforms
  | fullMesh =>
      have hperforms := TopologyFullMesh.performs_barrier (α := ℕ) hr
      have hzero : 0 ∉ List.range' 1 (n - 1) := fun h =>
        absurd (List.mem_range'_1.mp h).1 (Nat.not_succ_le_zero 0)
      rw [TopologyFullMesh.barrierScript, Script.project_append] at hperforms
      by_cases hr0 : r = 0
      · subst hr0
        rw [Script.project_inward_root hzero, Script.project_outward_root] at hperforms
        rw [xfers, if_pos rfl, List.map_eq_flatMap]
        exact hperforms
      · have hpeer : r ∈ List.range' 1 (n - 1) := List.mem_range'_1.mpr (by omega)
        rw [Script.project_inward_peer List.nodup_range' hzero hpeer,
          Script.project_outward_peer List.nodup_range' hzero hpeer] at hperforms
        rw [xfers, if_neg hr0]
        exact hperforms

omit hn hr in
theorem singleThreaded_barrier {α : Type*} (comm : Communicator) :
    (topology.call n r comm .barrier : RankProg α).SingleThreaded := by
  cases topology with
  | ring =>
      have hround : ∀ prev next,
          (TopologyRing.barrierRound r prev next : RankProg α).SingleThreaded := by
        intro prev next
        unfold TopologyRing.barrierRound
        split_ifs
        · exact (singleThreaded_send _ _ _).andThen (singleThreaded_recv _ _ _)
        · exact (singleThreaded_recv _ _ _).andThen (singleThreaded_send _ _ _)
      show (TopologyRing.withRing n r comm _).SingleThreaded
      unfold TopologyRing.withRing
      split
      · exact (hround _ _).andThen (hround _ _)
      · exact trivial
  | fullMesh =>
      have hwith : ∀ (peer : ℕ) (k : ℕ → RankProg α), (∀ t, (k t).SingleThreaded) →
          (withTransport comm peer k).SingleThreaded := by
        intro peer k hk
        unfold withTransport
        split
        · exact hk _
        · exact trivial
      show (TopologyFullMesh.barrier n r comm).SingleThreaded
      unfold TopologyFullMesh.barrier
      split_ifs
      · refine (singleThreaded_forEach fun p _ => hwith p _ fun t => ?_).andThen
          (singleThreaded_forEach fun p _ => hwith p _ fun t => ?_)
        · exact singleThreaded_recv _ _ _
        · exact singleThreaded_send _ _ _
      · refine hwith 0 _ fun t => ?_
        exact (singleThreaded_send _ _ _).andThen (singleThreaded_recv _ _ _)

end Performs

/-- Every state that can be reached has a history. -/
theorem exists_history {topology : TopologyType} {n : ℕ} (hn : 2 ≤ n) {k : ℕ → ℕ}
    {s : Fifo ℕ Buf ℕ}
    (h : Fifo.step.Reaches (Fifo.init (team (· < n) (prog topology n k)) fun _ _ _ => 0) s) :
    ∃ done, Fifo.History (actions topology n k) (fun _ _ _ => 0) s done := by
  refine Fifo.exists_history (fun r => ?_) (fun r => ?_) h
  · by_cases hr : r < n
    · rw [team, if_pos hr, actions, if_pos hr]
      exact performs_calls (performs_barrier hn hr) (k r)
    · rw [team, if_neg hr, actions, if_neg hr]
      exact .done
  · unfold team
    split_ifs
    · refine singleThreaded_inTurn fun p hp => ?_
      rw [List.eq_of_mem_replicate hp]
      exact (singleThreaded_barrier _).bind fun _ => trivial
    · exact trivial

/-! ### Counting -/

section Counting

variable {topology : TopologyType} {n r : ℕ} {k : ℕ → ℕ} {s : Fifo ℕ Buf ℕ}
  {done : ℕ → List (Local ℕ Buf ℕ)} {u v : Local ℕ Buf ℕ → ℕ} {c : ℕ}

theorem eq_of_mem_xfers {e : Local ℕ Buf ℕ} (h : e ∈ xfers topology n r) :
    (∃ j, e = sendTo j) ∨ ∃ i, e = recvFrom i := by
  cases topology with
  | ring =>
      have hround : ∀ e ∈ roundXfers n r, (∃ j, e = sendTo j) ∨ ∃ i, e = recvFrom i := by
        intro e he
        unfold roundXfers at he
        split at he
        all_goals
          simp only [List.mem_cons, List.not_mem_nil, or_false] at he
          rcases he with rfl | rfl <;> simp
      exact (List.mem_append.mp h).elim (hround e) (hround e)
  | fullMesh =>
      by_cases hr0 : r = 0
      · rw [xfers, if_pos hr0] at h
        rcases List.mem_append.mp h with h | h
        · obtain ⟨i, -, rfl⟩ := List.mem_map.mp h
          exact .inr ⟨i, rfl⟩
        · obtain ⟨j, -, rfl⟩ := List.mem_map.mp h
          exact .inl ⟨j, rfl⟩
      · rw [xfers, if_neg hr0] at h
        simp only [List.mem_cons, List.not_mem_nil, or_false] at h
        rcases h with rfl | rfl <;> simp

/-- The transfers count nothing. -/
theorem tally_gain_xfers (b : Buf) : tally (Local.gain b) (xfers topology n r) = 0 := by
  refine List.sum_eq_zero fun x hx => ?_
  obtain ⟨e, he, rfl⟩ := List.mem_map.mp hx
  rcases eq_of_mem_xfers he with ⟨j, rfl⟩ | ⟨i, rfl⟩ <;> rfl

/-- Whatever a rank does only adds to its counters. -/
theorem counts_actions {b : Buf} (hb : b ≠ .dummy) : ∀ e ∈ actions topology n k r, e.Counts b := by
  have hbump : ∀ b', (Local.act (bump b') : Local ℕ Buf ℕ).Counts b := by
    intro b' m
    by_cases hbb : b = b'
    · subst hbb
      rw [Local.gain, bump_self, bump_self]
    · rw [Local.gain, bump_of_ne hbb, bump_of_ne hbb]
      rfl
  intro e he
  unfold actions at he
  split at he
  · obtain ⟨l, hl, hel⟩ := List.mem_flatten.mp he
    rw [List.eq_of_mem_replicate hl] at hel
    rcases List.mem_append.mp hel with hel | hel
    · rcases List.mem_cons.mp hel with rfl | hel
      · exact hbump entered
      · rcases eq_of_mem_xfers hel with ⟨j, rfl⟩ | ⟨i, rfl⟩
        · exact fun hdir => nomatch hdir
        · exact fun _ => hb.symm
    · rw [List.mem_singleton.mp hel]
      exact hbump returned
  · exact absurd he List.not_mem_nil

theorem covered_actions (h : Covered u v c (callActions (xfers topology n r)))
    (hall : tally u (callActions (xfers topology n r))
      ≤ tally v (callActions (xfers topology n r))) :
    Covered u v c (actions topology n k r) := by
  unfold actions
  split
  · exact h.flatten_replicate hall (k r)
  · exact .of_le (Nat.zero_le c)

variable (h : Fifo.History (actions topology n k) (fun _ _ _ => 0) s done)
include h

theorem counter_eq {b : Buf} (hb : b ≠ .dummy) (r : ℕ) :
    (s.node r).mem b 0 = tally (Local.gain b) (done r) :=
  (h.counter (counts_actions hb)).trans (Nat.zero_add _)

/-- What a call does before it returns has been done in the calls that have returned. -/
theorem mul_returned_le {m : ℕ} (hv : m ≤ tally v (enter :: xfers topology n r)) :
    m * (s.node r).mem returned 0 ≤ tally v (done r) := by
  have hzero : tally (fun e => m * e.gain returned) (enter :: xfers topology n r) = 0 := by
    rw [tally_mul, tally_cons, tally_gain_xfers]
    rfl
  have hone : tally (fun e => m * e.gain returned) [leave] = m := by
    rw [tally_mul, tally_cons, tally_nil, gain_leave, Nat.add_zero, Nat.mul_one]
  have hcovered : Covered (fun e => m * e.gain returned) v 0 (actions topology n k r) := by
    refine covered_actions (.of_before hzero (hone.trans_le hv)) ?_
    rw [callActions, tally_append, tally_append, hzero, hone, Nat.zero_add]
    exact hv.trans (Nat.le_add_right _ _)
  have hdone := hcovered _ (h.prefix_actions r)
  rwa [tally_mul, ← counter_eq h (by decide)] at hdone

/-- What a call does has been done only in the calls that have been entered. -/
theorem le_mul_entered {m : ℕ} (henter : u enter = 0)
    (hu : tally u (xfers topology n r ++ [leave]) ≤ m) :
    tally u (done r) ≤ m * (s.node r).mem entered 0 := by
  have hzero : tally u [enter] = 0 := by
    rw [tally_cons, henter]
    rfl
  have hone : tally (fun e => m * e.gain entered) [enter] = m := by
    rw [tally_mul, tally_cons, tally_nil, gain_enter, Nat.add_zero, Nat.mul_one]
  have hcovered : Covered u (fun e => m * e.gain entered) 0 (actions topology n k r) := by
    refine covered_actions (.of_before (l := [enter]) hzero (hu.trans hone.ge)) ?_
    show tally u ([enter] ++ (_ ++ [leave])) ≤ tally _ ([enter] ++ (_ ++ [leave]))
    rw [tally_append _ [enter], tally_append _ [enter], hzero, hone, Nat.zero_add]
    exact hu.trans (Nat.le_add_right _ _)
  have hdone := hcovered _ (h.prefix_actions r)
  rwa [tally_mul, ← counter_eq h (by decide)] at hdone

end Counting

/-! ### The ring -/

section Ring

open TopologyRing

variable {n r : ℕ} {k : ℕ → ℕ} {s : Fifo ℕ Buf ℕ} {done : ℕ → List (Local ℕ Buf ℕ)}
  (h : Fifo.History (actions .ring n k) (fun _ _ _ => 0) s done)
include h

theorem ring_mul_returned_le (r : ℕ) :
    2 * (s.node r).mem returned 0 ≤ tally (Local.sent (getNextRank n r)) (done r) := by
  refine mul_returned_le h ?_
  unfold xfers roundXfers
  split_ifs <;> simp

theorem ring_le_mul_entered (r : ℕ) :
    tally (Local.sent (getNextRank n r)) (done r) ≤ 2 * (s.node r).mem entered 0 := by
  refine le_mul_entered h rfl ?_
  unfold xfers roundXfers
  split_ifs <;> simp

/-- A rank passes on what it has received; rank 0 is one token ahead. -/
theorem ring_sent_le (r : ℕ) :
    tally (Local.sent (getNextRank n r)) (done r)
      ≤ tally (Local.received (getPrevRank n r)) (done r) + if r = 0 then 1 else 0 := by
  have hround : Covered (Local.sent (getNextRank n r)) (Local.received (getPrevRank n r))
      (if r = 0 then 1 else 0) (roundXfers n r) := by
    unfold roundXfers
    by_cases hzero : r = 0
    · rw [if_pos hzero, if_pos hzero]
      exact .of_le (by simp)
    · rw [if_neg hzero, if_neg hzero]
      exact .of_before (l := [recvFrom _]) (by simp) (by simp)
  have hsent : tally (Local.sent (getNextRank n r)) (roundXfers n r) = 1 := by
    unfold roundXfers
    split_ifs <;> simp
  have hreceived : tally (Local.received (getPrevRank n r)) (roundXfers n r) = 1 := by
    unfold roundXfers
    split_ifs <;> simp
  have hxfers : callActions (xfers .ring n r)
      = [enter] ++ (roundXfers n r ++ (roundXfers n r ++ [leave])) := by
    rw [callActions, xfers, List.cons_append, List.append_assoc]
    rfl
  have hleave : Covered (Local.sent (getNextRank n r)) (Local.received (getPrevRank n r))
      (if r = 0 then 1 else 0) [leave] := .of_le (Nat.zero_le _)
  have hcovered : Covered (Local.sent (getNextRank n r)) (Local.received (getPrevRank n r))
      (if r = 0 then 1 else 0) (actions .ring n k r) := by
    refine covered_actions ?_ ?_
    · rw [hxfers]
      refine Covered.append (.of_le (Nat.zero_le _)) (hround.append (hround.append hleave ?_) ?_) ?_
      · rw [hsent, hreceived]
      · rw [hsent, hreceived]
      · exact le_rfl
    · rw [hxfers]
      simp [hsent, hreceived]
  exact hcovered _ (h.prefix_actions r)

/-- The ranks pass on ever fewer tokens. -/
theorem ring_sent_antitone {q : ℕ} (hrq : r ≤ q) (hq : q < n) :
    tally (Local.sent (getNextRank n q)) (done q)
      ≤ tally (Local.sent (getNextRank n r)) (done r) := by
  induction q, hrq using Nat.le_induction with
  | base => exact le_rfl
  | succ q hrq ih =>
      have hnext : getNextRank n q = q + 1 := by
        rw [getNextRank_of_lt (by omega), if_neg hq.ne]
      have hprev : getPrevRank n (q + 1) = q := by
        rw [getPrevRank_of_lt hq, if_neg q.succ_ne_zero]
        rfl
      have hpass := ring_sent_le h (q + 1)
      have hchan := h.received_le_sent q (q + 1)
      have hq := ih (by omega)
      rw [hprev, if_neg q.succ_ne_zero] at hpass
      rw [hnext] at hq
      omega

theorem ring_returned_le_entered {q : ℕ} (hr : r < n) (hq : q < n) :
    (s.node r).mem returned 0 ≤ (s.node q).mem entered 0 := by
  have hnext : getNextRank n (n - 1) = 0 := by
    rw [getNextRank_of_lt (by omega), if_pos (by omega)]
  have hprev : getPrevRank n 0 = n - 1 := by
    rw [getPrevRank_of_lt (by omega), if_pos rfl]
  -- around the ring, from `r` back to rank 0 and from there back to `q`
  have hreturned := ring_mul_returned_le h r
  have hfirst := ring_sent_antitone h (Nat.zero_le r) hr
  have hround := ring_sent_le h 0
  have hchan := h.received_le_sent (n - 1) 0
  have hlast := ring_sent_antitone h (Nat.le_sub_one_of_lt hq) (by omega)
  have hentered := ring_le_mul_entered h q
  rw [hprev, if_pos rfl] at hround
  rw [hnext] at hlast
  omega

end Ring

/-! ### The full mesh -/

section FullMesh

variable {n r q p : ℕ} {k : ℕ → ℕ} {s : Fifo ℕ Buf ℕ} {done : ℕ → List (Local ℕ Buf ℕ)}

theorem tally_sent_map (peers : List ℕ) (q : ℕ) :
    tally (Local.sent q) (peers.map sendTo) = peers.count q := by
  rw [tally_map]
  simp only [sent_sendTo, tally_count]

theorem tally_received_map (peers : List ℕ) (q : ℕ) :
    tally (Local.received q) (peers.map recvFrom) = peers.count q := by
  rw [tally_map]
  simp only [received_recvFrom, tally_count]

theorem tally_sent_map_recvFrom (peers : List ℕ) (q : ℕ) :
    tally (Local.sent q) (peers.map recvFrom) = 0 := by
  rw [tally_map]
  exact tally_zero peers

theorem count_peers (hq : 0 < q) (hqn : q < n) : (List.range' 1 (n - 1)).count q = 1 :=
  List.count_eq_one_of_mem List.nodup_range' (List.mem_range'_1.mpr (by omega))

variable (h : Fifo.History (actions .fullMesh n k) (fun _ _ _ => 0) s done)
include h

/-- Rank 0 answers anyone after it has heard from everyone. -/
theorem mesh_root_sent_le (hq : 0 < q) (hqn : q < n) (hp : 0 < p) (hpn : p < n) :
    tally (Local.sent q) (done 0) ≤ tally (Local.received p) (done 0) := by
  have hxfers : callActions (xfers .fullMesh n 0)
      = (enter :: (List.range' 1 (n - 1)).map recvFrom)
        ++ ((List.range' 1 (n - 1)).map sendTo ++ [leave]) := by
    rw [callActions, xfers, if_pos rfl, List.cons_append, List.append_assoc]
    rfl
  have hsent : tally (Local.sent q) ((List.range' 1 (n - 1)).map sendTo ++ [leave]) = 1 := by
    rw [tally_append, tally_sent_map, count_peers hq hqn]
    rfl
  have hfirst : tally (Local.sent q) (enter :: (List.range' 1 (n - 1)).map recvFrom) = 0 := by
    rw [tally_cons, tally_sent_map_recvFrom, sent_enter]
  have hreceived :
      tally (Local.received p) (enter :: (List.range' 1 (n - 1)).map recvFrom) = 1 := by
    rw [tally_cons, tally_received_map, count_peers hp hpn, received_enter]
  have hcovered : Covered (Local.sent q) (Local.received p) 0 (actions .fullMesh n k 0) := by
    refine covered_actions ?_ ?_
    · rw [hxfers]
      exact .of_before hfirst (hsent.trans hreceived.symm).le
    · rw [hxfers, tally_append _ (enter :: _), tally_append _ (enter :: _), hfirst, hsent,
        hreceived]
      exact Nat.le_add_right _ _
  exact hcovered _ (h.prefix_actions 0)

/-- Another rank returns after it has heard from rank 0. -/
theorem mesh_peer_returned_le (hr : r ≠ 0) :
    (s.node r).mem returned 0 ≤ tally (Local.sent r) (done 0) := by
  have hreturned := mul_returned_le h (m := 1) (v := Local.received 0) (r := r) (by
    rw [xfers, if_neg hr]
    simp)
  have hchan := h.received_le_sent 0 r
  omega

/-- Rank 0 hears from a rank only in calls that this rank has entered. -/
theorem mesh_received_le (hq : q ≠ 0) :
    tally (Local.received q) (done 0) ≤ (s.node q).mem entered 0 := by
  have hentered := le_mul_entered h (m := 1) (u := Local.sent 0) (r := q) rfl (by
    rw [xfers, if_neg hq]
    simp)
  have hchan := h.received_le_sent q 0
  omega

theorem mesh_returned_le_entered (hr : r < n) (hq : q < n) :
    (s.node r).mem returned 0 ≤ (s.node q).mem entered 0 := by
  by_cases hr0 : r = 0
  · subst hr0
    by_cases hq0 : q = 0
    · subst hq0
      have hreturned := mul_returned_le h (m := 1) (v := Local.gain entered) (r := 0) (by
        rw [tally_cons, gain_enter]
        exact Nat.le_add_right _ _)
      rwa [← counter_eq h (by decide), Nat.one_mul] at hreturned
    · have hpos := Nat.pos_of_ne_zero hq0
      have hreturned := mul_returned_le h (m := 1) (v := Local.received q) (r := 0) (by
        rw [xfers, if_pos rfl, tally_cons, tally_append, tally_received_map, count_peers hpos hq]
        omega)
      have hheard := mesh_received_le h hq0
      omega
  · have hreturned := mesh_peer_returned_le h hr0
    have hrpos := Nat.pos_of_ne_zero hr0
    by_cases hq0 : q = 0
    · subst hq0
      have hentered := le_mul_entered h (m := 1) (u := Local.sent r) (r := 0) rfl (by
        rw [xfers, if_pos rfl, tally_append, tally_append, tally_sent_map_recvFrom,
          tally_sent_map, count_peers hrpos hr]
        rfl)
      omega
    · have hanswered := mesh_root_sent_le h hrpos hr (Nat.pos_of_ne_zero hq0) hq
      have hheard := mesh_received_le h hq0
      omega

end FullMesh

/-! ### Phases -/

/-- **`Barrier` separates phases**: if a rank has returned from its `i`-th call, every
rank has entered its `i`-th call. -/
theorem separates_phases (topology : TopologyType) {n : ℕ} (hn : 2 ≤ n) (k : ℕ → ℕ)
    {s : Fifo ℕ Buf ℕ}
    (h : Fifo.step.Reaches (Fifo.init (team (· < n) (prog topology n k)) fun _ _ _ => 0) s)
    {r q : ℕ} (hr : r < n) (hq : q < n) (i : ℕ) (hi : i ≤ (s.node r).mem returned 0) :
    i ≤ (s.node q).mem entered 0 := by
  obtain ⟨done, hdone⟩ := exists_history hn h
  refine hi.trans ?_
  cases topology with
  | ring => exact ring_returned_le_entered hdone hr hq
  | fullMesh => exact mesh_returned_le_entered hdone hr hq

/-- All ranks make a call. -/
def countedScript (topology : TopologyType) (n : ℕ) : Script ℕ Buf ℕ :=
  Script.locals (List.range n) (fun _ => bump entered) ++
    (topology.callScript n .barrier ++ Script.locals (List.range n) fun _ => bump returned)

theorem schedule_counted (topology : TopologyType) {n : ℕ} (hn : 2 ≤ n) :
    Schedule (· < n) (fun r =>
        counted (topology.call n r (topology.neighborComm n r) .barrier))
      (countedScript topology n) := by
  have h := topology.schedule_call (α := ℕ) hn (c := .barrier) trivial
  refine ⟨fun r hr => ?_, fun e he => ?_, fun r hr => ?_⟩
  · rw [countedScript, Script.project_append, Script.project_append,
      Script.project_locals_range hr, Script.project_locals_range hr]
    exact .act ((h.performs r hr).bind (.doAct _))
  · rcases List.mem_append.mp he with he | he
    · exact Script.wf_locals_range _ e he
    · exact (List.mem_append.mp he).elim (h.wf e) (Script.wf_locals_range _ e)
  · exact (h.raceFree r hr).bind fun _ => trivial

/-- Ranks that call `Barrier` equally often can all return. -/
theorem exists_all_returned (topology : TopologyType) {n : ℕ} (hn : 2 ≤ n) (k : ℕ) :
    ∃ s, Fifo.step.Reaches
        (Fifo.init (team (· < n) (prog topology n fun _ => k)) fun _ _ _ => 0) s ∧
      ∀ r < n, (s.node r).mem returned 0 = k := by
  have hprog : (prog topology n fun _ => k) = fun r => inTurn ((List.replicate k ()).map fun _ =>
      counted (topology.call n r (topology.neighborComm n r) .barrier)) := by
    funext r
    rw [prog, calls, List.map_replicate]
  have h : Schedule (· < n) (prog topology n fun _ => k)
      ((List.replicate k ()).flatMap fun _ => countedScript topology n) := by
    rw [hprog]
    exact Schedule.inTurn fun _ _ => schedule_counted topology hn
  obtain ⟨s, hreaches, hreturned⟩ := h.exists_completed fun _ _ _ => 0
  refine ⟨s, hreaches, fun r hr => ?_⟩
  obtain ⟨done, hdone⟩ := exists_history hn hreaches
  rw [counter_eq hdone (by decide), hdone.eq_of_returned (hreturned r), actions, if_pos hr,
    tally_flatten_replicate, callActions, tally_append, tally_cons, tally_gain_xfers]
  exact Nat.mul_one k

/-- A ring of three ranks after two calls. -/
theorem separates_phases_three :
    ∃ s, Fifo.step.Reaches
        (Fifo.init (team (· < 3) (prog .ring 3 fun _ => 2)) fun _ _ _ => 0) s ∧
      (s.node 1).mem returned 0 = 2 ∧ 2 ≤ (s.node 2).mem entered 0 := by
  obtain ⟨s, hreaches, hreturned⟩ := exists_all_returned .ring (n := 3) (by decide) 2
  refine ⟨s, hreaches, hreturned 1 (by decide), ?_⟩
  exact separates_phases .ring (by decide) _ hreaches (r := 1) (by decide) (by decide) 2
    (hreturned 1 (by decide)).ge

end Barrier

end MiniCcl
