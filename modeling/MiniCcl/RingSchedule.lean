/-
MiniCcl/RingSchedule.lean

Scripts for the collectives of the ring, and the proof that each rank's program
performs its part of them.

In the rooted collectives data travels along the ring, so their scripts are
chains over positions.  In `AllGather`, `AllReduce` and `Barrier` every rank
sends to its successor in each round.  `ReduceScatter` and `AllToAll` are made of
the others.

`schedule_call` puts them together, and `ring_session_balanced` is what follows for a
network whose ranks make any sequence of calls.
-/
import MiniCcl.RingRanks
import MiniCcl.Schedule

namespace MiniCcl.TopologyRing

open Prog

variable {α : Type*}

/-! ### Scripts of the rooted collectives -/

section Rooted

variable (n count w : ℕ) (root : ℕ)

/-- The buffer travels from the root to the rank before it. -/
def broadcastScript (buffer : ℕ → Buf) : Script ℕ Buf α :=
  Script.chain (rankAt n root) (fun p => ⟨buffer (rankAt n root p), 0, count⟩)
    (fun p => ⟨buffer (rankAt n root p), 0, count⟩) w (fun _ => []) (n - 1)

/-- The position of the ranks in the order in which data travels to the root:
the last position first. -/
def rankFrom (p : ℕ) : ℕ := rankAt n root (n - 1 - p)

/-- Every rank puts its own block first and appends what it receives; the root
sorts the blocks at the end. -/
def gatherScript (sendBuf recvBuf : ℕ → Buf) : Script ℕ Buf α :=
  Script.locals (List.range n) (fun r m =>
      if r = root then m.copy (recvBuf r) (root * count) (sendBuf r) 0 count
      else m.copy .sendBuffer 0 (sendBuf r) 0 count) ++
    Script.chain (rankFrom n root) (fun p => ⟨.sendBuffer, 0, (p + 1) * count⟩)
      (fun p => if p = n - 1 then ⟨.temp, 0, (n - 1) * count⟩
        else ⟨.sendBuffer, count, p * count⟩) w
      (fun p => if p = n - 1 then (List.range (n - 1)).map fun i m =>
          m.copy (recvBuf root) ((root + 1 + i) % n * count) .temp (i * count) count
        else []) (n - 1)

/-- What the rank after `p` hops sends of the block for position `step`. -/
def scatterSource (sendRoot : Buf) (step p : ℕ) : Slice Buf :=
  if p = 0 then ⟨sendRoot, (root + step) % n * count, count⟩ else ⟨.temp, 0, count⟩

/-- Where the rank after `p` hops receives the block for position `step`. -/
def scatterSlot (recvBuf : ℕ → Buf) (step p : ℕ) : Slice Buf :=
  if p = step then ⟨recvBuf (rankAt n root p), 0, count⟩ else ⟨.temp, 0, count⟩

/-- The block for position `step` travels from the root to its rank, through
`temp` on the way. -/
def scatterChain (sendBuf recvBuf : ℕ → Buf) (step : ℕ) : Script ℕ Buf α :=
  Script.chain (rankAt n root) (scatterSource n count root (sendBuf root) step)
    (scatterSlot n count root recvBuf step) w (fun _ => []) step

/-- Block by block the root's data travels to its rank, nearest rank first. -/
def scatterScript (sendBuf recvBuf : ℕ → Buf) : Script ℕ Buf α :=
  .act root (fun m => m.copy (recvBuf root) 0 (sendBuf root) (root * count) count) ::
    (List.range' 1 (n - 1)).flatMap (scatterChain n count w root sendBuf recvBuf)

/-- Where the rank after `p` hops receives. -/
def reduceSlot (p : ℕ) : Slice Buf :=
  if p = n - 1 then ⟨.tempBuffer, 0, count⟩ else ⟨.recvTemp, 0, count⟩

/-- How the rank after `p` hops reduces what it received. -/
def reduceActs (recvRoot : Buf) (red : Reducer α) (p : ℕ) : List (RankMem α → RankMem α) :=
  if p = n - 1 then [red.perform ⟨.tempBuffer, 0⟩ ⟨recvRoot, 0⟩ count]
  else [red.perform ⟨.recvTemp, 0⟩ ⟨.tempBuffer, 0⟩ count]

/-- Every rank reduces what it receives into its own data and sends it on. -/
def reduceScript (sendBuf recvBuf : ℕ → Buf) (red : Reducer α) : Script ℕ Buf α :=
  Script.locals (List.range n) (fun r m =>
      if r = root then m.copy (recvBuf r) 0 (sendBuf r) 0 count
      else m.copy .tempBuffer 0 (sendBuf r) 0 count) ++
    Script.chain (rankFrom n root) (fun _ => ⟨.tempBuffer, 0, count⟩) (reduceSlot n count) w
      (reduceActs n count (recvBuf root) red) (n - 1)

end Rooted

/-! ### The rooted collectives perform them -/

section RootedPerforms

variable {n root r : ℕ} (hroot : root < n) (hr : r < n) (count : ℕ) (dtype : DataType)
include hroot

theorem getNextRank_rankAt_eq_root {p : ℕ} (hp : p < n) :
    getNextRank n (rankAt n root p) = root ↔ p + 1 = n := by
  rw [getNextRank_rankAt]
  constructor
  · intro h
    by_contra hlast
    exact absurd ((rankAt_eq_root hroot (by omega)).mp h) (Nat.succ_ne_zero p)
  · intro h
    rw [h, rankAt_self hroot]

include hr

theorem performs_broadcast (buffer : ℕ → Buf) :
    Performs (α := α) [] (broadcast n r (neighborComm n r) (buffer r) count dtype root)
      (Script.project r (broadcastScript n count (getDataTypeSize dtype) root buffer)) := by
  obtain ⟨p, hp, rfl⟩ := exists_rankAt hroot hr
  have hforward : Performs (α := α) []
      (if ¬ p + 1 = n then
          send (getNextRank n (rankAt n root p)) ⟨buffer (rankAt n root p), 0, count⟩
            (getDataTypeSize dtype)
        else ret true)
      (if p < n - 1 then
          [.xfer ⟨.send, rankAt n root (p + 1), ⟨buffer (rankAt n root p), 0, count⟩,
            getDataTypeSize dtype⟩]
        else []) := by
    by_cases hlast : p + 1 = n
    · rw [if_neg (not_not.mpr hlast), if_neg (by omega)]
      exact .done
    · rw [if_pos hlast, if_pos (by omega), getNextRank_rankAt]
      exact .send _ _ _
  simp only [broadcastScript, broadcast, withRing_neighborComm, ne_eq,
    Script.project_chain (rankAt_inj hroot) (Nat.sub_lt_self one_pos (by omega)) hp,
    getNextRank_rankAt_eq_root hroot hp, rankAt_eq_root hroot hp]
  cases p with
  | zero => simpa using hforward
  | succ p =>
      have hpos : 0 < p + 1 ∧ p + 1 ≤ n - 1 := ⟨Nat.succ_pos p, by omega⟩
      rw [if_neg (Nat.succ_ne_zero p), getPrevRank_rankAt (by omega), if_pos hpos]
      exact (Performs.recv _ _ _).andThen hforward

omit hr in
theorem rankFrom_inj {p q : ℕ} (hp : p < n) (hq : q < n)
    (h : rankFrom n root p = rankFrom n root q) : p = q := by
  have := rankAt_inj hroot (by omega) (by omega) h
  omega

omit hr in
/-- The chain towards the root, seen from the rank at position `p`: receive
from the next rank unless it is the farthest one, then compute, then send to the
previous rank unless it is the root. -/
theorem project_toRoot {p : ℕ} (hp : p < n) (s d : ℕ → Slice Buf) (w : ℕ)
    (acts : ℕ → List (RankMem α → RankMem α)) :
    Script.project (rankAt n root p) (Script.chain (rankFrom n root) s d w acts (n - 1))
      = (if p + 1 = n then [] else
          .xfer ⟨.recv, getNextRank n (rankAt n root p), d (n - 1 - p), w⟩
            :: (acts (n - 1 - p)).map .act)
        ++ if p = 0 then [] else
          [.xfer ⟨.send, getPrevRank n (rankAt n root p), s (n - 1 - p), w⟩] := by
  have hfrom : rankAt n root p = rankFrom n root (n - 1 - p) := by
    rw [rankFrom, show n - 1 - (n - 1 - p) = p by omega]
  rw [hfrom, Script.project_chain (rankFrom_inj hroot) (Nat.sub_lt_self one_pos (by omega))
    (by omega), ← hfrom]
  congr 1
  · by_cases hlast : p + 1 = n
    · rw [if_pos hlast, if_neg (by omega)]
    · rw [if_neg hlast, if_pos (by omega), getNextRank_rankAt, rankFrom,
        show n - 1 - (n - 1 - p - 1) = p + 1 by omega]
  · cases p with
    | zero => rw [if_pos rfl, if_neg (by omega)]
    | succ p =>
        rw [if_neg (Nat.succ_ne_zero p), if_pos (by omega), getPrevRank_rankAt (by omega),
          rankFrom, show n - 1 - (n - 1 - (p + 1) + 1) = p by omega]

theorem performs_reduce (hn : 2 ≤ n) (sendBuf recvBuf : ℕ → Buf) (red : Reducer α) :
    Performs [] (reduce n r (neighborComm n r) (sendBuf r) (recvBuf r) count dtype red root)
      (Script.project r
        (reduceScript n count (getDataTypeSize dtype) root sendBuf recvBuf red)) := by
  obtain ⟨p, hp, rfl⟩ := exists_rankAt hroot hr
  rw [reduceScript, Script.project_append,
    Script.project_locals_range hr,
    project_toRoot hroot hp, List.singleton_append]
  simp only [reduce, withRing_neighborComm, rankAt_eq_root hroot hp, position_rankAt hroot hp]
  cases p with
  | zero =>
      rw [if_pos rfl, if_neg (by omega), if_pos rfl, List.append_nil]
      simp only [Nat.sub_zero, reduceSlot, reduceActs, if_true, rankAt_zero hroot]
      exact .act ((Performs.recv _ _ _).andThen (.doAct _))
  | succ p =>
      rw [if_neg (Nat.succ_ne_zero p), if_neg (Nat.succ_ne_zero p)]
      refine .act (Performs.andThen ?_ (.send _ _ _))
      by_cases hlast : p + 2 = n
      · rw [if_neg (by omega), if_pos hlast]
        exact .done
      · rw [if_pos (by omega), if_neg hlast, reduceSlot, reduceActs, if_neg (by omega),
          if_neg (by omega)]
        exact (Performs.recv _ _ _).andThen (.doAct _)

theorem performs_gather (hn : 2 ≤ n) (sendBuf recvBuf : ℕ → Buf) :
    Performs (α := α) [] (gather n r (neighborComm n r) (sendBuf r) (recvBuf r) count dtype root)
      (Script.project r
        (gatherScript n count (getDataTypeSize dtype) root sendBuf recvBuf)) := by
  obtain ⟨p, hp, rfl⟩ := exists_rankAt hroot hr
  rw [gatherScript, Script.project_append,
    Script.project_locals_range hr,
    project_toRoot hroot hp, List.singleton_append]
  simp only [gather, withRing_neighborComm, rankAt_eq_root hroot hp, position_rankAt hroot hp]
  cases p with
  | zero =>
      rw [if_pos rfl, if_neg (by omega), if_pos rfl, List.append_nil]
      simp only [Nat.sub_zero, if_true, rankAt_zero hroot, List.map_map]
      refine .act ((Performs.recv _ _ _).andThen ?_)
      rw [List.map_eq_flatMap]
      exact Performs.forEach fun i _ => .doAct _
  | succ p =>
      rw [if_neg (Nat.succ_ne_zero p), if_neg (Nat.succ_ne_zero p)]
      have hchunks : n - 1 - (p + 1) + 1 = n - (p + 1) := by omega
      rw [hchunks]
      refine .act (Performs.andThen ?_ (.send _ _ _))
      by_cases hlast : p + 2 = n
      · rw [if_neg (by omega), if_pos hlast]
        exact .done
      · rw [if_pos (by omega), if_neg hlast, if_neg (by omega), if_neg (by omega), List.map_nil,
          show n - (p + 1) - 1 = n - 1 - (p + 1) by omega]
        exact .recv _ _ _

omit hr in
/-- A rank takes no part in the blocks of the ranks before it, keeps its own
block and forwards the later ones. -/
theorem project_scatterChain {p step : ℕ} (hp : p < n) (hpos : 0 < step) (hstep : step < n)
    (w : ℕ) (sendBuf recvBuf : ℕ → Buf) :
    Script.project (rankAt n root p)
        (scatterChain n count w root sendBuf recvBuf step : Script ℕ Buf α)
      = if p = 0 then
          [.xfer ⟨.send, rankAt n root 1, ⟨sendBuf root, (root + step) % n * count, count⟩, w⟩]
        else if step < p then []
        else if p = step then
          [.xfer ⟨.recv, rankAt n root (p - 1), ⟨recvBuf (rankAt n root p), 0, count⟩, w⟩]
        else [.xfer ⟨.recv, rankAt n root (p - 1), ⟨.temp, 0, count⟩, w⟩,
          .xfer ⟨.send, rankAt n root (p + 1), ⟨.temp, 0, count⟩, w⟩] := by
  rw [scatterChain, Script.project_chain (rankAt_inj hroot) hstep hp]
  simp only [scatterSource, scatterSlot]
  by_cases hzero : p = 0
  · subst hzero
    simp [hpos]
  · rcases lt_trichotomy p step with hlt | rfl | hgt
    · simp [hzero, hlt, Nat.pos_of_ne_zero hzero, Nat.le_of_lt hlt, Nat.ne_of_lt hlt,
        Nat.not_lt_of_gt hlt]
    · simp [hzero, hpos]
    · simp [hzero, hgt, Nat.not_le_of_gt hgt, Nat.not_lt_of_gt hgt]

theorem performs_scatter (sendBuf recvBuf : ℕ → Buf) :
    Performs (α := α) [] (scatter n r (neighborComm n r) (sendBuf r) (recvBuf r) count dtype root)
      (Script.project r
        (scatterScript n count (getDataTypeSize dtype) root sendBuf recvBuf)) := by
  obtain ⟨p, hp, rfl⟩ := exists_rankAt hroot hr
  rw [scatterScript, Script.project_cons, Script.project_flatMap]
  simp only [scatter, withRing_neighborComm, rankAt_eq_root hroot hp, position_rankAt hroot hp]
  have hproject {step : ℕ} (hpos : 0 < step) (hstep : step < n) :=
    project_scatterChain (α := α) hroot count hp hpos hstep (getDataTypeSize dtype)
      sendBuf recvBuf
  cases p with
  | zero =>
      rw [if_pos rfl, rankAt_zero hroot, Event.project, if_pos rfl, List.singleton_append]
      refine .act (Performs.forEach fun step hstep => ?_)
      have hstep := List.mem_range'_1.mp hstep
      have hsend := hproject hstep.1 (by omega)
      rw [if_pos rfl, rankAt_zero hroot] at hsend
      have hnext : getNextRank n root = rankAt n root 1 := rfl
      rw [hsend, hnext]
      exact .send _ _ _
  | succ p =>
      have hne : rankAt n root (p + 1) ≠ root :=
        fun h => Nat.succ_ne_zero p ((rankAt_eq_root hroot hp).mp h)
      have hsplit : List.range' 1 (n - 1)
          = List.range' 1 p ++ (p + 1) :: List.range' (p + 2) (n - 1 - (p + 1)) := by
        rw [show n - 1 = p + (n - 1 - (p + 1) + 1) by omega, ← List.range'_append_1,
          List.range'_succ, Nat.add_comm 1 p]
        simp
        omega
      have hbefore : (List.range' 1 p).flatMap (fun step => Script.project (rankAt n root (p + 1))
          (scatterChain (α := α) n count (getDataTypeSize dtype) root sendBuf recvBuf step))
          = [] := by
        refine List.flatMap_eq_nil_iff.mpr fun step hstep => ?_
        have hstep := List.mem_range'_1.mp hstep
        rw [hproject (by omega) (by omega), if_neg (Nat.succ_ne_zero p), if_pos (by omega)]
      have hafter : ∀ k ∈ List.range (n - 1 - (p + 1)),
          Script.project (rankAt n root (p + 1)) (scatterChain (α := α) n count
            (getDataTypeSize dtype) root sendBuf recvBuf (p + 2 + k)) = _ := fun k hk => by
        have hk := List.mem_range.mp hk
        rw [hproject (by omega) (by omega), if_neg (Nat.succ_ne_zero p), if_neg (by omega),
          if_neg (by omega)]
      rw [if_neg (Nat.succ_ne_zero p), getNextRank_rankAt, getPrevRank_rankAt (by omega), hsplit,
        List.flatMap_append, hbefore, List.flatMap_cons, hproject (Nat.succ_pos p) hp,
        if_neg (Nat.succ_ne_zero p), if_neg (Nat.lt_irrefl _), if_pos rfl,
        List.range'_eq_map_range, List.flatMap_map, List.flatMap_congr hafter, Event.project,
        if_neg hne]
      exact (Performs.recv _ _ _).andThen
        (Performs.forEach fun _ _ => (Performs.recv _ _ _).andThen (.send _ _ _))

end RootedPerforms

/-! ### Scripts of the collectives of all ranks -/

section Symmetric

variable (n count w : ℕ)

/-- One round of `AllGather`: everyone passes on the block it got last. -/
def allGatherStep (recvBuf : ℕ → Buf) (step : ℕ) : Script ℕ Buf α :=
  Script.hops (getNextRank n) (hopOrder n)
    (fun r => ⟨recvBuf r, (r + n - step) % n * count, count⟩)
    (fun r => ⟨recvBuf r, (r + n - 1 - step) % n * count, count⟩) w

def allGatherScript (sendBuf recvBuf : ℕ → Buf) : Script ℕ Buf α :=
  Script.locals (List.range n) (fun r m =>
      m.copy (recvBuf r) (r * count) (sendBuf r) 0 count) ++
    (List.range (n - 1)).flatMap (allGatherStep n count w recvBuf)

/-- The exchange of `AllReduceTwoRanks`, then the reduction at both ranks. -/
def twoRanksScript (sendBuf recvBuf : ℕ → Buf) (red : Reducer α) : Script ℕ Buf α :=
  Script.locals (List.range 2) (fun r m => m.copy (recvBuf r) 0 (sendBuf r) 0 count) ++
    (Script.hops (getNextRank 2) (List.range 2) (fun r => ⟨recvBuf r, 0, count⟩)
        (fun _ => ⟨.peerData, 0, count⟩) w ++
      Script.locals (List.range 2) fun r => red.perform ⟨.peerData, 0⟩ ⟨recvBuf r, 0⟩ count)

/-- One round of `AllReduceReduceScatter`. -/
def reduceScatterStep (recvBuf : ℕ → Buf) (red : Reducer α) (step : ℕ) : Script ℕ Buf α :=
  Script.hops (getNextRank n) (hopOrder n)
      (fun r => chunkSlice n (recvBuf r) count (AllReduceReduceScatter.sendChunk n r step))
      (fun r =>
        ⟨.tempBuffer, 0, actualCount n count (AllReduceReduceScatter.recvChunk n r step)⟩) w ++
    Script.locals (List.range n) fun r =>
      red.perform ⟨.tempBuffer, 0⟩
        ⟨recvBuf r, AllReduceReduceScatter.recvChunk n r step * chunkSize n count⟩
        (actualCount n count (AllReduceReduceScatter.recvChunk n r step))

/-- One round of `AllReduceAllGather`. -/
def chunkGatherStep (recvBuf : ℕ → Buf) (step : ℕ) : Script ℕ Buf α :=
  Script.hops (getNextRank n) (hopOrder n)
    (fun r => chunkSlice n (recvBuf r) count (AllReduceAllGather.sendChunk n r step))
    (fun r => chunkSlice n (recvBuf r) count (AllReduceAllGather.recvChunk n r step)) w

/-- `AllReduce` for three ranks or more. -/
def chunksScript (sendBuf recvBuf : ℕ → Buf) (red : Reducer α) : Script ℕ Buf α :=
  Script.locals (List.range n) (fun r m => m.copy (recvBuf r) 0 (sendBuf r) 0 count) ++
    ((List.range (n - 1)).flatMap (reduceScatterStep n count w recvBuf red) ++
      (List.range (n - 1)).flatMap (chunkGatherStep n count w recvBuf))

def allReduceScript (sendBuf recvBuf : ℕ → Buf) (red : Reducer α) : Script ℕ Buf α :=
  if n = 2 then twoRanksScript count w sendBuf recvBuf red
  else chunksScript n count w sendBuf recvBuf red

def reduceScatterScript (sendBuf recvBuf : ℕ → Buf) (red : Reducer α) : Script ℕ Buf α :=
  reduceScript n (count * n) w 0 sendBuf (fun _ => .reducedBuf) red ++
    scatterScript n count w 0 (fun _ => .reducedBuf) recvBuf

/-- One round of `AllToAll`: the broadcast from `src`, of which every rank keeps
its own block. -/
def allToAllStep (sendBuf recvBuf : ℕ → Buf) (src : ℕ) : Script ℕ Buf α :=
  Script.locals (List.range n) (fun r m =>
      if r = src then m.copy .tempBuffer 0 (sendBuf r) 0 (count * n) else m) ++
    (broadcastScript n (count * n) w src (fun _ => .tempBuffer) ++
      Script.locals (List.range n) fun r m =>
        m.copy (recvBuf r) (src * count) .tempBuffer (r * count) count)

def allToAllScript (sendBuf recvBuf : ℕ → Buf) : Script ℕ Buf α :=
  Script.locals (List.range n) (fun r m =>
      m.copy (recvBuf r) (r * count) (sendBuf r) (r * count) count) ++
    (List.range n).flatMap (allToAllStep n count w sendBuf recvBuf)

/-- The token goes around once. -/
def barrierRoundScript : Script ℕ Buf α :=
  Script.hops (getNextRank n) (List.range n) (fun _ => ⟨.dummy, 0, 1⟩)
    (fun _ => ⟨.dummy, 0, 1⟩) 4

def barrierScript : Script ℕ Buf α := barrierRoundScript n ++ barrierRoundScript n

end Symmetric

/-! ### The collectives of all ranks perform them -/

section SymmetricPerforms

variable {n r : ℕ} (hn : 2 ≤ n) (hr : r < n) (count : ℕ) (dtype : DataType)
include hn hr

theorem performs_allGather (sendBuf recvBuf : ℕ → Buf) :
    Performs (α := α) [] (allGather n r (neighborComm n r) (sendBuf r) (recvBuf r) count dtype)
      (Script.project r
        (allGatherScript n count (getDataTypeSize dtype) sendBuf recvBuf)) := by
  rw [allGatherScript, Script.project_append, Script.project_locals_range hr,
    Script.project_flatMap, List.singleton_append]
  simp only [allGather, withRing_neighborComm]
  refine .act (Performs.forEach fun step _ => ?_)
  rw [allGatherStep, project_hopOrder hn hr]
  by_cases heven : r % 2 = 0
  · rw [if_pos heven, if_pos heven]
    exact (Performs.send _ _ _).andThen (.recv _ _ _)
  · rw [if_neg heven, if_neg heven]
    exact (Performs.recv _ _ _).andThen (.send _ _ _)

/-- The two transfers of a batch complete in either order. -/
theorem performs_sendThread (s d : ℕ → Slice Buf) (w : ℕ) :
    Performs (α := α) [] (sendThread (getNextRank n r) (s r) (getPrevRank n r) (d r) w)
      (Script.project r (Script.hops (getNextRank n) (hopOrder n) s d w)) := by
  let x : Xfer ℕ Buf := ⟨.send, getNextRank n r, s r, w⟩
  let y : Xfer ℕ Buf := ⟨.recv, getPrevRank n r, d r, w⟩
  have hkeys : ([x, y].map Xfer.key).Nodup := by simp [x, y, Xfer.key]
  rw [project_hopOrder hn hr]
  by_cases heven : r % 2 = 0
  · rw [if_pos heven]
    have hperm : [x, y].Perm [x, y] := .refl _
    exact Performs.par hperm (List.cons_ne_nil _ _) hkeys .done
  · rw [if_neg heven]
    have hperm : [y, x].Perm [x, y] := .swap _ _ _
    exact Performs.par hperm (List.cons_ne_nil _ _) hkeys .done

omit hn hr in
theorem performs_twoRanks (hr : r < 2) (sendBuf recvBuf : ℕ → Buf) (red : Reducer α) :
    Performs [] (allReduceTwoRanks r (neighborComm 2 r) (sendBuf r) (recvBuf r) count dtype red)
      (Script.project r
        (twoRanksScript count (getDataTypeSize dtype) sendBuf recvBuf red)) := by
  have hnext : getNextRank 2 r = 1 - r := by
    rw [getNextRank_of_lt hr]
    split_ifs <;> omega
  have hprev : getPrevRank 2 r = 1 - r := by
    rw [getPrevRank_of_lt hr]
    split_ifs <;> omega
  have hpeer : 1 - r ∈ (neighborComm 2 r).transports := by
    rw [← hprev]
    exact List.mem_cons_self
  rw [twoRanksScript, Script.project_append, Script.project_append, Script.project_locals_range hr,
    Script.project_locals_range hr, project_hops_range le_rfl hr, hnext, hprev,
    List.singleton_append, allReduceTwoRanks, withTransport_of_mem hpeer]
  refine .act (Performs.andThen ?_ (.doAct _))
  by_cases hzero : r = 0
  · rw [if_pos hzero, if_pos hzero]
    exact (Performs.send _ _ _).andThen (.recv _ _ _)
  · rw [if_neg hzero, if_neg hzero]
    exact (Performs.recv _ _ _).andThen (.send _ _ _)

theorem performs_allReduce (sendBuf recvBuf : ℕ → Buf) (red : Reducer α) :
    Performs [] (allReduce n r (neighborComm n r) (sendBuf r) (recvBuf r) count dtype red)
      (Script.project r
        (allReduceScript n count (getDataTypeSize dtype) sendBuf recvBuf red)) := by
  by_cases htwo : n = 2
  · subst htwo
    rw [allReduce, if_pos rfl, allReduceScript, if_pos rfl]
    exact performs_twoRanks count dtype hr sendBuf recvBuf red
  · rw [allReduce, if_neg htwo, allReduceScript, if_neg htwo, chunksScript,
      Script.project_append, Script.project_append, Script.project_flatMap,
      Script.project_flatMap, Script.project_locals_range hr, List.singleton_append,
      withRing_neighborComm]
    refine .act (Performs.andThen (Performs.forEach fun step _ => ?_)
      (Performs.forEach fun step _ => ?_))
    · rw [reduceScatterStep, Script.project_append, Script.project_locals_range hr]
      exact (performs_sendThread hn hr
        (fun r => chunkSlice n (recvBuf r) count (AllReduceReduceScatter.sendChunk n r step))
        (fun r =>
          ⟨.tempBuffer, 0, actualCount n count (AllReduceReduceScatter.recvChunk n r step)⟩)
        _).andThen (.doAct _)
    · exact performs_sendThread hn hr
        (fun r => chunkSlice n (recvBuf r) count (AllReduceAllGather.sendChunk n r step))
        (fun r => chunkSlice n (recvBuf r) count (AllReduceAllGather.recvChunk n r step)) _

omit hn in
theorem performs_allToAll (sendBuf recvBuf : ℕ → Buf) :
    Performs (α := α) [] (allToAll n r (neighborComm n r) (sendBuf r) (recvBuf r) count dtype)
      (Script.project r
        (allToAllScript n count (getDataTypeSize dtype) sendBuf recvBuf)) := by
  rw [allToAllScript, Script.project_append, Script.project_locals_range hr, Script.project_flatMap,
    List.singleton_append]
  refine .act (Performs.forEach fun src hsrc => ?_)
  rw [allToAllStep, Script.project_append, Script.project_append, Script.project_locals_range hr,
    Script.project_locals_range hr, List.singleton_append]
  exact .act ((performs_broadcast (List.mem_range.mp hsrc) hr _ dtype
    fun _ => .tempBuffer).andThen (.doAct _))

theorem performs_barrier :
    Performs (α := α) [] (barrier n r (neighborComm n r))
      (Script.project r (barrierScript n)) := by
  have hround : Performs (α := α) []
      (barrierRound r (getPrevRank n r) (getNextRank n r))
      (Script.project r (barrierRoundScript n)) := by
    rw [barrierRoundScript, project_hops_range hn hr, barrierRound]
    by_cases hzero : r = 0
    · rw [if_pos hzero, if_pos hzero]
      exact (Performs.send _ _ _).andThen (.recv _ _ _)
    · rw [if_neg hzero, if_neg hzero]
      exact (Performs.recv _ _ _).andThen (.send _ _ _)
  rw [barrier, withRing_neighborComm, barrierScript, Script.project_append]
  exact hround.andThen hround

end SymmetricPerforms

/-! ### Transfers are between two ranks and of one length -/

section Wf

variable {n root : ℕ} (count w : ℕ)

section Rooted

variable (hroot : root < n)
include hroot

theorem wf_broadcastScript (buffer : ℕ → Buf) :
    ∀ e ∈ (broadcastScript n count w root buffer : Script ℕ Buf α), e.Wf (· < n) := by
  refine Script.wf_chain (fun p _ => rankAt_lt (by omega) p) (fun p hp h => ?_) fun p _ => rfl
  have := rankAt_inj hroot (by omega) (by omega) h
  omega

/-- A chain towards the root is between ranks; only the lengths differ. -/
theorem wf_toRoot {s d : ℕ → Slice Buf} {acts : ℕ → List (RankMem α → RankMem α)}
    (hlen : ∀ p < n - 1, (s p).len = (d (p + 1)).len) :
    ∀ e ∈ Script.chain (rankFrom n root) s d w acts (n - 1), e.Wf (· < n) := by
  refine Script.wf_chain (fun p _ => rankAt_lt (by omega) _) (fun p hp h => ?_) hlen
  have := rankFrom_inj hroot (by omega) (by omega) h
  omega

theorem wf_gatherScript (sendBuf recvBuf : ℕ → Buf) :
    ∀ e ∈ (gatherScript n count w root sendBuf recvBuf : Script ℕ Buf α), e.Wf (· < n) := by
  refine List.forall_mem_append.mpr ⟨Script.wf_locals_range _, wf_toRoot w hroot fun p hp => ?_⟩
  by_cases hlast : p + 1 = n - 1
  · rw [if_pos hlast, hlast]
  · rw [if_neg hlast]

theorem wf_scatterScript (sendBuf recvBuf : ℕ → Buf) :
    ∀ e ∈ (scatterScript n count w root sendBuf recvBuf : Script ℕ Buf α), e.Wf (· < n) := by
  refine List.forall_mem_cons.mpr ⟨hroot, Script.wf_flatMap fun step hstep => ?_⟩
  have hstep := List.mem_range'_1.mp hstep
  refine Script.wf_chain (fun p _ => rankAt_lt (by omega) p) (fun p hp h => ?_) fun p _ => ?_
  · have := rankAt_inj hroot (by omega) (by omega) h
    omega
  · unfold scatterSource scatterSlot
    split_ifs <;> rfl

theorem wf_reduceScript (sendBuf recvBuf : ℕ → Buf) (red : Reducer α) :
    ∀ e ∈ reduceScript n count w root sendBuf recvBuf red, e.Wf (· < n) := by
  refine List.forall_mem_append.mpr ⟨Script.wf_locals_range _, wf_toRoot w hroot fun p hp => ?_⟩
  unfold reduceSlot
  split_ifs <;> rfl

end Rooted

variable (hn : 2 ≤ n)
include hn

theorem wf_hops_next {L : List ℕ} (hL : ∀ q ∈ L, q < n) {s d : ℕ → Slice Buf}
    (hlen : ∀ q < n, (s q).len = (d (getNextRank n q)).len) :
    ∀ e ∈ (Script.hops (getNextRank n) L s d w : Script ℕ Buf α), e.Wf (· < n) :=
  Script.wf_hops fun q hq =>
    ⟨hL q hq, getNextRank_lt (by omega), getNextRank_ne hn (hL q hq), hlen q (hL q hq)⟩

theorem wf_allGatherScript (sendBuf recvBuf : ℕ → Buf) :
    ∀ e ∈ (allGatherScript n count w sendBuf recvBuf : Script ℕ Buf α), e.Wf (· < n) :=
  List.forall_mem_append.mpr ⟨Script.wf_locals_range _, Script.wf_flatMap fun _ _ =>
    wf_hops_next w hn (fun _ => mem_hopOrder.mp) fun _ _ => rfl⟩

theorem wf_allReduceScript (sendBuf recvBuf : ℕ → Buf) (red : Reducer α) :
    ∀ e ∈ allReduceScript n count w sendBuf recvBuf red, e.Wf (· < n) := by
  by_cases htwo : n = 2
  · subst htwo
    rw [allReduceScript, if_pos rfl]
    exact List.forall_mem_append.mpr ⟨Script.wf_locals_range _, List.forall_mem_append.mpr
      ⟨wf_hops_next w hn (fun _ => List.mem_range.mp) fun _ _ => rfl, Script.wf_locals_range _⟩⟩
  · rw [allReduceScript, if_neg htwo]
    refine List.forall_mem_append.mpr ⟨Script.wf_locals_range _, List.forall_mem_append.mpr
      ⟨Script.wf_flatMap fun step hstep => ?_, Script.wf_flatMap fun step hstep => ?_⟩⟩
    · have hstep := List.mem_range.mp hstep
      refine List.forall_mem_append.mpr
        ⟨wf_hops_next w hn (fun _ => mem_hopOrder.mp) fun q _ => ?_, Script.wf_locals_range _⟩
      exact congrArg (actualCount n count)
        (AllReduceReduceScatter.sendChunk_eq_recvChunk (by omega) q)
    · have hstep := List.mem_range.mp hstep
      refine wf_hops_next w hn (fun _ => mem_hopOrder.mp) fun q _ => ?_
      exact congrArg (actualCount n count)
        (AllReduceAllGather.sendChunk_eq_recvChunk (by omega) q)

omit hn in
theorem wf_allToAllScript (sendBuf recvBuf : ℕ → Buf) :
    ∀ e ∈ (allToAllScript n count w sendBuf recvBuf : Script ℕ Buf α), e.Wf (· < n) :=
  List.forall_mem_append.mpr ⟨Script.wf_locals_range _, Script.wf_flatMap fun _ hsrc =>
    List.forall_mem_append.mpr ⟨Script.wf_locals_range _, List.forall_mem_append.mpr
      ⟨wf_broadcastScript _ w (List.mem_range.mp hsrc) _, Script.wf_locals_range _⟩⟩⟩

theorem wf_barrierScript : ∀ e ∈ (barrierScript n : Script ℕ Buf α), e.Wf (· < n) := by
  have hround : ∀ e ∈ (barrierRoundScript n : Script ℕ Buf α), e.Wf (· < n) :=
    wf_hops_next 4 hn (fun _ => List.mem_range.mp) fun _ _ => rfl
  exact List.forall_mem_append.mpr ⟨hround, hround⟩

end Wf

/-! ### No races

Only `AllReduce` has two transfers outstanding at once.  In its first phase the
received chunk goes to `tempBuffer`, in the second to a chunk of `recvBuf` that
is not the one being sent. -/

theorem actualCount_le (n count chunk : ℕ) : actualCount n count chunk ≤ chunkSize n count :=
  min_le_left _ _

theorem chunkSlice_disjoint {a b : ℕ} (h : a ≠ b) (n : ℕ) (recvBuf : Buf) (count : ℕ) :
    (chunkSlice n recvBuf count a).Disjoint (chunkSlice n recvBuf count b) := by
  have hbefore : ∀ {a b : ℕ}, a < b →
      a * chunkSize n count + actualCount n count a ≤ b * chunkSize n count := by
    intro a b hab
    calc a * chunkSize n count + actualCount n count a
        ≤ a * chunkSize n count + chunkSize n count :=
          Nat.add_le_add_left (actualCount_le n count a) _
      _ = (a + 1) * chunkSize n count := (Nat.succ_mul _ _).symm
      _ ≤ b * chunkSize n count := Nat.mul_le_mul_right _ hab
  rcases lt_or_gt_of_ne h with hab | hab
  · exact .inr (.inl (hbefore hab))
  · exact .inr (.inr (hbefore hab))

theorem raceFree_sendThread {s d : Slice Buf} (h : s.Disjoint d) (next prev w : ℕ) :
    (sendThread next s prev d w : RankProg α).RaceFree := by
  refine ⟨List.pairwise_pair.mpr (.inr h), fun _ => trivial⟩

theorem raceFree_withRing {n r : ℕ} {comm : Communicator} {k : ℕ → ℕ → RankProg α}
    (h : ∀ prev next, (k prev next).RaceFree) : (withRing n r comm k).RaceFree := by
  unfold withRing
  split
  · exact h _ _
  · exact trivial

section RaceFree

variable (n r : ℕ) (comm : Communicator) (sendBuf recvBuf : Buf) (count : ℕ)
  (dtype : DataType) (red : Reducer α) (root : ℕ)

theorem raceFree_broadcast (buffer : Buf) :
    (broadcast n r comm buffer count dtype root : RankProg α).RaceFree := by
  refine raceFree_withRing fun prev next => ?_
  split_ifs <;> simp

theorem raceFree_gather :
    (gather n r comm sendBuf recvBuf count dtype root : RankProg α).RaceFree := by
  refine raceFree_withRing fun prev next => ?_
  dsimp only
  split_ifs <;> simp

theorem raceFree_scatter :
    (scatter n r comm sendBuf recvBuf count dtype root : RankProg α).RaceFree := by
  refine raceFree_withRing fun prev next => ?_
  split_ifs
  · simp
  · exact (raceFree_recv _ _ _).andThen (raceFree_forEach fun _ _ => by simp)

theorem raceFree_reduce :
    (reduce n r comm sendBuf recvBuf count dtype red root).RaceFree := by
  refine raceFree_withRing fun prev next => ?_
  dsimp only
  split_ifs <;> simp

theorem raceFree_allGather :
    (allGather n r comm sendBuf recvBuf count dtype : RankProg α).RaceFree := by
  refine raceFree_withRing fun prev next => ?_
  refine raceFree_forEach fun step _ => ?_
  split_ifs <;> simp

theorem raceFree_allReduceTwoRanks :
    (allReduceTwoRanks r comm sendBuf recvBuf count dtype red).RaceFree := by
  unfold allReduceTwoRanks withTransport
  split
  · dsimp only
    split_ifs <;> simp
  · simp

theorem raceFree_allReduce (hn : 2 ≤ n) (hrecv : recvBuf ≠ .tempBuffer) :
    (allReduce n r comm sendBuf recvBuf count dtype red).RaceFree := by
  unfold allReduce
  split_ifs with htwo
  · exact raceFree_allReduceTwoRanks _ _ _ _ _ _ _
  · refine raceFree_withRing fun prev next => RaceFree.andThen ?_ ?_
    · refine raceFree_forEach fun step _ => RaceFree.andThen ?_ trivial
      exact raceFree_sendThread (Slice.disjoint_of_buf_ne hrecv) _ _ _
    · refine raceFree_forEach fun step hstep => ?_
      refine raceFree_sendThread (chunkSlice_disjoint ?_ _ _ _) _ _ _
      have hstep := List.mem_range.mp hstep
      exact AllReduceAllGather.sendChunk_ne_recvChunk hn (by omega) r

theorem raceFree_allToAll :
    (allToAll n r comm sendBuf recvBuf count dtype : RankProg α).RaceFree := by
  refine raceFree_forEach fun src _ => ?_
  exact (raceFree_broadcast _ _ _ _ _ _ _).andThen trivial

theorem raceFree_barrier : (barrier n r comm : RankProg α).RaceFree := by
  refine raceFree_withRing fun prev next => ?_
  unfold barrierRound
  dsimp only
  split_ifs <;> simp

end RaceFree

/-! ### Schedules of calls -/

/-- The script of a call. -/
def callScript (n : ℕ) : Call α → Script ℕ Buf α
  | .broadcast buffer count dtype root =>
      broadcastScript n count (getDataTypeSize dtype) root (userBuf buffer)
  | .gather sendBuf recvBuf count dtype root =>
      gatherScript n count (getDataTypeSize dtype) root (userBuf sendBuf) (userBuf recvBuf)
  | .scatter sendBuf recvBuf count dtype root =>
      scatterScript n count (getDataTypeSize dtype) root (userBuf sendBuf) (userBuf recvBuf)
  | .reduce sendBuf recvBuf count dtype red root =>
      reduceScript n count (getDataTypeSize dtype) root (userBuf sendBuf) (userBuf recvBuf) red
  | .allGather sendBuf recvBuf count dtype =>
      allGatherScript n count (getDataTypeSize dtype) (userBuf sendBuf) (userBuf recvBuf)
  | .reduceScatter sendBuf recvBuf count dtype red =>
      reduceScatterScript n count (getDataTypeSize dtype) (userBuf sendBuf) (userBuf recvBuf) red
  | .allReduce sendBuf recvBuf count dtype red =>
      allReduceScript n count (getDataTypeSize dtype) (userBuf sendBuf) (userBuf recvBuf) red
  | .allToAll sendBuf recvBuf count dtype =>
      allToAllScript n count (getDataTypeSize dtype) (userBuf sendBuf) (userBuf recvBuf)
  | .barrier => barrierScript n

/-- What one rank runs when all ranks make the calls `cs` one after the other,
each with its transports to its neighbours. -/
def session (n : ℕ) (cs : List (Call α)) (r : ℕ) : RankProg α :=
  inTurn (cs.map (call n r (neighborComm n r)))

/-- All ranks make the call `c`; whoever is not a rank has nothing to do. -/
def callTeam (n : ℕ) (c : Call α) : ℕ → RankProg α :=
  team (· < n) fun r => call n r (neighborComm n r) c

theorem schedule_broadcast {n root : ℕ} (hroot : root < n) (buffer : ℕ → Buf) (count : ℕ)
    (dtype : DataType) :
    Schedule (α := α) (· < n)
      (fun r => broadcast n r (neighborComm n r) (buffer r) count dtype root)
      (broadcastScript n count (getDataTypeSize dtype) root buffer) :=
  ⟨fun _ hr => performs_broadcast hroot hr count dtype buffer,
    wf_broadcastScript _ _ hroot _, fun _ _ => raceFree_broadcast _ _ _ _ _ _ _⟩

section Schedules

variable {n : ℕ} (hn : 2 ≤ n)
include hn

/-- `ReduceScatter` is a `Reduce` to rank 0 followed by a `Scatter` from it. -/
theorem schedule_reduceScatter (count : ℕ) (dtype : DataType) (sendBuf recvBuf : ℕ → Buf)
    (red : Reducer α) :
    Schedule (· < n)
      (fun r => reduceScatter n r (neighborComm n r) (sendBuf r) (recvBuf r) count dtype red)
      (reduceScatterScript n count (getDataTypeSize dtype) sendBuf recvBuf red) := by
  have hroot : 0 < n := by omega
  have hreduce : Schedule (· < n)
      (fun r => reduce n r (neighborComm n r) (sendBuf r) .reducedBuf (count * n) dtype red 0)
      (reduceScript n (count * n) (getDataTypeSize dtype) 0 sendBuf (fun _ => .reducedBuf) red) :=
    ⟨fun r hr => performs_reduce hroot hr _ dtype hn sendBuf (fun _ => .reducedBuf) red,
      wf_reduceScript _ _ hroot _ _ red, fun r _ => raceFree_reduce _ _ _ _ _ _ _ _ _⟩
  have hscatter : Schedule (α := α) (· < n)
      (fun r => scatter n r (neighborComm n r) .reducedBuf (recvBuf r) count dtype 0)
      (scatterScript n count (getDataTypeSize dtype) 0 (fun _ => .reducedBuf) recvBuf) :=
    ⟨fun r hr => performs_scatter hroot hr count dtype (fun _ => .reducedBuf) recvBuf,
      wf_scatterScript _ _ hroot _ _, fun r _ => raceFree_scatter _ _ _ _ _ _ _ _⟩
  exact hreduce.andThen hscatter

/-- **Every collective of the ring performs its script**, for every world size,
root and count. -/
theorem schedule_call {c : Call α} (hc : c.Valid n) :
    Schedule (· < n) (fun r => call n r (neighborComm n r) c) (callScript n c) := by
  cases c with
  | broadcast buffer count dtype root =>
      exact schedule_broadcast hc (userBuf buffer) count dtype
  | gather sendBuf recvBuf count dtype root =>
      exact ⟨fun r hr => performs_gather hc hr count dtype hn (userBuf sendBuf) (userBuf recvBuf),
        wf_gatherScript _ _ hc _ _, fun r _ => raceFree_gather _ _ _ _ _ _ _ _⟩
  | scatter sendBuf recvBuf count dtype root =>
      exact ⟨fun r hr => performs_scatter hc hr count dtype (userBuf sendBuf) (userBuf recvBuf),
        wf_scatterScript _ _ hc _ _, fun r _ => raceFree_scatter _ _ _ _ _ _ _ _⟩
  | reduce sendBuf recvBuf count dtype red root =>
      exact ⟨fun r hr =>
          performs_reduce hc hr count dtype hn (userBuf sendBuf) (userBuf recvBuf) red,
        wf_reduceScript _ _ hc _ _ red, fun r _ => raceFree_reduce _ _ _ _ _ _ _ _ _⟩
  | allGather sendBuf recvBuf count dtype =>
      exact ⟨fun r hr => performs_allGather hn hr count dtype (userBuf sendBuf) (userBuf recvBuf),
        wf_allGatherScript _ _ hn _ _, fun r _ => raceFree_allGather _ _ _ _ _ _ _⟩
  | reduceScatter sendBuf recvBuf count dtype red =>
      exact schedule_reduceScatter hn count dtype (userBuf sendBuf) (userBuf recvBuf) red
  | allReduce sendBuf recvBuf count dtype red =>
      exact ⟨fun r hr =>
          performs_allReduce hn hr count dtype (userBuf sendBuf) (userBuf recvBuf) red,
        wf_allReduceScript _ _ hn _ _ red,
        fun r _ => raceFree_allReduce _ _ _ _ _ _ _ _ hn (by simp)⟩
  | allToAll sendBuf recvBuf count dtype =>
      exact ⟨fun r hr => performs_allToAll hr count dtype (userBuf sendBuf) (userBuf recvBuf),
        wf_allToAllScript _ _ _ _, fun r _ => raceFree_allToAll _ _ _ _ _ _ _⟩
  | barrier =>
      exact ⟨fun r hr => performs_barrier hn hr, wf_barrierScript hn,
        fun r _ => raceFree_barrier _ _ _⟩

/-- Some run of a call completes. -/
theorem exists_completed {c : Call α} (hc : c.Valid n) (m : ℕ → RankMem α) :
    ∃ s, Fifo.step.Reaches (Fifo.init (callTeam n c) m) s ∧ ∀ r < n, (s.node r).Finished := by
  obtain ⟨s, hs, hret⟩ := (schedule_call hn hc).exists_completed m
  exact ⟨s, hs, fun r _ => ⟨true, hret r⟩⟩

/-- What a completed run of a call leaves in the memories is what its script
computes. -/
theorem mem_of_completed {c : Call α} {m : ℕ → RankMem α} {s : Fifo ℕ Buf α}
    (hs : Fifo.step.Reaches (Fifo.init (callTeam n c) m) s)
    (hdone : ∀ r < n, (s.node r).Finished) (hc : c.Valid n) (r : ℕ) :
    (s.node r).mem = Script.exec (callScript n c) m r :=
  (((schedule_call hn hc).completed m hs hdone).1 r).2

theorem schedule_session {cs : List (Call α)} (hcs : ∀ c ∈ cs, c.Valid n) :
    Schedule (· < n) (session n cs) (cs.flatMap (callScript n)) :=
  Schedule.inTurn fun c hc => schedule_call hn (hcs c hc)

/-- **Any sequence of calls of the ring's collectives is free of deadlocks and
leaves the channels balanced.** -/
theorem ring_session_balanced {cs : List (Call α)} (hcs : ∀ c ∈ cs, c.Valid n) :
    Balanced (· < n) (session n cs) :=
  (schedule_session hn hcs).balanced

end Schedules

/-- Three ranks, where ranks 2 and 0 are neighbours and both send first. -/
theorem ring_session_balanced_three :
    Balanced (· < 3) (session 3
      [.reduce id id 5 .int32 (Reducer.performReduce (w := 32) .sum 3) 2,
        .allGather id id 1 .float64]) :=
  ring_session_balanced (by decide) (by simp [Call.Valid])

end MiniCcl.TopologyRing
