/-
MiniCcl/MeshSchedule.lean

Scripts for the collectives of the full mesh, and the proof that each rank's
program performs its part of them.

The rooted collectives are stars.  `AllGather` and `AllToAll` exchange data
between all pairs of ranks; each rank goes through its peers in ascending order,
which fits the lexicographic order of the pairs.  A round of `ReduceScatter` or
`AllReduce` pairs rank `r` with `r ^^^ mask`, and the order of the ranks fits it,
because the smaller rank of a pair sends first.
-/
import MiniCcl.Doubling
import MiniCcl.FullMesh
import MiniCcl.Patterns
import MiniCcl.Schedule

namespace MiniCcl.TopologyFullMesh

open Prog

variable {α : Type*}

/-! ### Peers and masks -/

/-- The communicator that holds a transport to every other rank. -/
def neighborComm (worldSize rank : ℕ) : Communicator := ⟨getNeighbors worldSize rank⟩

theorem mem_peersOf {n r p : ℕ} : p ∈ peersOf n r ↔ p < n ∧ p ≠ r := by
  simp [peersOf]

theorem nodup_peersOf (n r : ℕ) : (peersOf n r).Nodup := List.nodup_range.filter _

theorem not_mem_peersOf (n r : ℕ) : r ∉ peersOf n r := fun h => (mem_peersOf.mp h).2 rfl

theorem getTransport_neighborComm {n r p : ℕ} (hp : p ∈ peersOf n r) :
    (neighborComm n r).getTransport p = some p :=
  Communicator.getTransport_of_mem hp

theorem withTransport_neighborComm {n r p : ℕ} (hp : p ∈ peersOf n r) (k : ℕ → RankProg α) :
    withTransport (neighborComm n r) p k = k p :=
  withTransport_of_mem hp k

/-- The peers of a rank: the smaller ones, then the larger ones. -/
theorem peersOf_eq {n r : ℕ} (hr : r < n) :
    peersOf n r = List.range r ++ List.range' (r + 1) (n - 1 - r) := by
  have hbefore : (List.range r).filter (fun p => decide (p ≠ r)) = List.range r :=
    List.filter_eq_self.mpr fun p hp => by simpa using Nat.ne_of_lt (List.mem_range.mp hp)
  have hafter : (List.range' (r + 1) (n - 1 - r)).filter (fun p => decide (p ≠ r))
      = List.range' (r + 1) (n - 1 - r) :=
    List.filter_eq_self.mpr fun p hp => by
      simpa using Nat.ne_of_gt (List.mem_range'_1.mp hp).1
  rw [peersOf, range_eq_append_cons hr, List.filter_append, hbefore,
    List.filter_cons_of_neg (by simp), hafter]

/-- The doubling loops run through the powers of two below the world size. -/
theorem masksFrom_eq {n : ℕ} {fuel k : ℕ} (h : Nat.clog 2 n ≤ k + fuel) :
    masksFrom n fuel (2 ^ k) = (List.range' k (Nat.clog 2 n - k)).map (2 ^ ·) := by
  induction fuel generalizing k with
  | zero =>
      rw [show Nat.clog 2 n - k = 0 by omega]
      rfl
  | succ fuel ih =>
      rw [masksFrom]
      by_cases hk : 2 ^ k < n
      · have hlt : k < Nat.clog 2 n := (Nat.lt_clog_iff_pow_lt (by decide)).mpr hk
        rw [if_pos hk, Nat.shiftLeft_eq, ← pow_add, ih (by omega),
          show Nat.clog 2 n - k = Nat.clog 2 n - (k + 1) + 1 by omega, List.range'_succ,
          List.map_cons]
      · have hle : Nat.clog 2 n ≤ k := Nat.clog_le_of_le_pow (Nat.le_of_not_lt hk)
        rw [if_neg hk, Nat.sub_eq_zero_of_le hle]
        rfl

theorem masks_eq (n : ℕ) : masks n = (List.range (Nat.clog 2 n)).map (2 ^ ·) := by
  have hfuel : Nat.clog 2 n ≤ 0 + n :=
    Nat.clog_le_of_le_pow (by rw [Nat.zero_add]; exact Nat.le_of_lt (Nat.lt_two_pow_self))
  have := masksFrom_eq hfuel
  rwa [pow_zero, Nat.sub_zero, ← List.range_eq_range'] at this

theorem mask_pos {n mask : ℕ} (h : mask ∈ masks n) : 0 < mask := by
  rw [masks_eq] at h
  obtain ⟨k, -, rfl⟩ := List.mem_map.mp h
  exact Nat.two_pow_pos k

/-! ### Scripts -/

section Scripts

variable (n count w : ℕ)

def broadcastScript (root : ℕ) (buffer : ℕ → Buf) : Script ℕ Buf α :=
  Script.outward root (peersOf n root) (fun _ => ⟨buffer root, 0, count⟩)
    (fun p => ⟨buffer p, 0, count⟩) w

def gatherScript (root : ℕ) (sendBuf recvBuf : ℕ → Buf) : Script ℕ Buf α :=
  .act root (fun m => m.copy (recvBuf root) (root * count) (sendBuf root) 0 count) ::
    Script.inward root (peersOf n root) (fun p => ⟨sendBuf p, 0, count⟩)
      (fun p => ⟨recvBuf root, p * count, count⟩) w fun _ => []

def scatterScript (root : ℕ) (sendBuf recvBuf : ℕ → Buf) : Script ℕ Buf α :=
  .act root (fun m => m.copy (recvBuf root) 0 (sendBuf root) (root * count) count) ::
    Script.outward root (peersOf n root) (fun p => ⟨sendBuf root, p * count, count⟩)
      (fun p => ⟨recvBuf p, 0, count⟩) w

def reduceScript (root : ℕ) (sendBuf recvBuf : ℕ → Buf) (red : Reducer α) :
    Script ℕ Buf α :=
  .act root (fun m => m.copy (recvBuf root) 0 (sendBuf root) 0 count) ::
    Script.inward root (peersOf n root) (fun p => ⟨sendBuf p, 0, count⟩)
      (fun _ => ⟨.tempBuffer, 0, count⟩) w
      fun _ => [red.perform ⟨.tempBuffer, 0⟩ ⟨recvBuf root, 0⟩ count]

/-- The ranks `a < b` exchange data; `s r p` is what `r` sends to `p` and `d r p`
where it receives from `p`. -/
def exchange (s d : ℕ → ℕ → Slice Buf) (a b : ℕ) : Script ℕ Buf α :=
  [.comm a (s a b) b (d b a) w, .comm b (s b a) a (d a b) w]

/-- All pairs, in lexicographic order. -/
def exchanges (s d : ℕ → ℕ → Slice Buf) : Script ℕ Buf α :=
  (List.range n).flatMap fun a =>
    (List.range' (a + 1) (n - 1 - a)).flatMap (exchange w s d a)

def allGatherScript (sendBuf recvBuf : ℕ → Buf) : Script ℕ Buf α :=
  Script.locals (List.range n) (fun r m =>
      m.copy (recvBuf r) (r * count) (sendBuf r) 0 count) ++
    exchanges n w (fun r _ => ⟨sendBuf r, 0, count⟩) fun r p => ⟨recvBuf r, p * count, count⟩

def allToAllScript (sendBuf recvBuf : ℕ → Buf) : Script ℕ Buf α :=
  Script.locals (List.range n) (fun r m =>
      m.copy (recvBuf r) (r * count) (sendBuf r) (r * count) count) ++
    exchanges n w (fun r p => ⟨sendBuf r, p * count, count⟩)
      fun r p => ⟨recvBuf r, p * count, count⟩

/-- The ranks that have a peer in the round of `mask`. -/
def paired (mask : ℕ) : List ℕ := (List.range n).filter fun r => r ^^^ mask < n

/-- One doubling round: the paired ranks exchange, then reduce block by block. -/
def doublingStep (s d : ℕ → Slice Buf) (perform : ℕ → ℕ → RankMem α → RankMem α)
    (blocks : ℕ) (mask : ℕ) : Script ℕ Buf α :=
  Script.hops (· ^^^ mask) (paired n mask) s d w ++
    (List.range blocks).flatMap fun i => Script.locals (paired n mask) (perform i)

def reduceScatterScript (sendBuf recvBuf : ℕ → Buf) (red : Reducer α) : Script ℕ Buf α :=
  Script.locals (List.range n) (fun r m =>
      m.copy .tempRecvbuf 0 (sendBuf r) 0 (count * n)) ++
    ((masks n).flatMap (doublingStep n w (fun _ => ⟨.tempRecvbuf, 0, count * n⟩)
        (fun _ => ⟨.tempBuf, 0, count * n⟩)
        (fun i _ => red.perform ⟨.tempBuf, i * count⟩ ⟨.tempRecvbuf, i * count⟩ count) n) ++
      Script.locals (List.range n) fun r m =>
        m.copy (recvBuf r) 0 .tempRecvbuf (r * count) count)

def allReduceScript (sendBuf recvBuf : ℕ → Buf) (red : Reducer α) : Script ℕ Buf α :=
  Script.locals (List.range n) (fun r m => m.copy (recvBuf r) 0 (sendBuf r) 0 count) ++
    (masks n).flatMap (doublingStep n w (fun r => ⟨recvBuf r, 0, count⟩)
      (fun _ => ⟨.tempBuffer, 0, count⟩)
      (fun _ r => red.perform ⟨.tempBuffer, 0⟩ ⟨recvBuf r, 0⟩ count) 1)

/-- Everyone reports to rank 0, which then answers. -/
def barrierScript : Script ℕ Buf α :=
  Script.inward 0 (List.range' 1 (n - 1)) (fun _ => ⟨.dummy, 0, 1⟩) (fun _ => ⟨.dummy, 0, 1⟩) 4
      (fun _ => []) ++
    Script.outward 0 (List.range' 1 (n - 1)) (fun _ => ⟨.dummy, 0, 1⟩)
      (fun _ => ⟨.dummy, 0, 1⟩) 4

end Scripts

/-! ### Projections -/

theorem project_exchange (w : ℕ) (s d : ℕ → ℕ → Slice Buf) {a b : ℕ} (hab : a < b) (r : ℕ) :
    Script.project r (exchange w s d a b : Script ℕ Buf α)
      = if r = a then [.xfer ⟨.send, b, s r b, w⟩, .xfer ⟨.recv, b, d r b, w⟩]
        else if r = b then [.xfer ⟨.recv, a, d r a, w⟩, .xfer ⟨.send, a, s r a, w⟩]
        else [] := by
  by_cases ha : r = a
  · subst ha
    simp [exchange, Event.project, Nat.ne_of_lt hab]
  · by_cases hb : r = b
    · subst hb
      simp [exchange, Event.project, ha]
    · simp [exchange, Event.project, ha, hb]

/-- A rank exchanges with its peers in ascending order; it sends first to the
larger ones. -/
theorem project_exchanges {n r : ℕ} (hr : r < n) (w : ℕ) (s d : ℕ → ℕ → Slice Buf) :
    Script.project r (exchanges n w s d : Script ℕ Buf α)
      = (peersOf n r).flatMap fun p =>
          if r < p then [.xfer ⟨.send, p, s r p, w⟩, .xfer ⟨.recv, p, d r p, w⟩]
          else [.xfer ⟨.recv, p, d r p, w⟩, .xfer ⟨.send, p, s r p, w⟩] := by
  have hinner : ∀ a, Script.project r ((List.range' (a + 1) (n - 1 - a)).flatMap
      (exchange w s d a) : Script ℕ Buf α)
        = (List.range' (a + 1) (n - 1 - a)).flatMap fun b =>
          if r = a then [.xfer ⟨.send, b, s r b, w⟩, .xfer ⟨.recv, b, d r b, w⟩]
          else if r = b then [.xfer ⟨.recv, a, d r a, w⟩, .xfer ⟨.send, a, s r a, w⟩]
          else [] := by
    intro a
    rw [Script.project_flatMap]
    refine List.flatMap_congr fun b hb => project_exchange w s d ?_ r
    exact (List.mem_range'_1.mp hb).1
  have hsmaller : ∀ a ∈ List.range r, Script.project r ((List.range' (a + 1) (n - 1 - a)).flatMap
      (exchange w s d a) : Script ℕ Buf α)
        = if r < a then [.xfer ⟨.send, a, s r a, w⟩, .xfer ⟨.recv, a, d r a, w⟩]
          else [.xfer ⟨.recv, a, d r a, w⟩, .xfer ⟨.send, a, s r a, w⟩] := by
    intro a ha
    have ha := List.mem_range.mp ha
    have hmem : [r].Sublist (List.range' (a + 1) (n - 1 - a)) :=
      List.singleton_sublist.mpr (List.mem_range'_1.mpr ⟨ha, by omega⟩)
    rw [hinner, if_neg (by omega), flatMap_of_sublist hmem List.nodup_range' fun b _ hb => ?_]
    · simp [Nat.ne_of_gt ha]
    · have hne : r ≠ b := fun h => hb (h ▸ List.mem_singleton_self r)
      simp [hne, Nat.ne_of_gt ha]
  have hlarger : ∀ a ∈ List.range' (r + 1) (n - 1 - r),
      Script.project r ((List.range' (a + 1) (n - 1 - a)).flatMap
        (exchange w s d a) : Script ℕ Buf α) = [] := by
    intro a ha
    have ha := (List.mem_range'_1.mp ha).1
    rw [hinner]
    refine List.flatMap_eq_nil_iff.mpr fun b hb => ?_
    have hb := (List.mem_range'_1.mp hb).1
    rw [if_neg (by omega), if_neg (by omega)]
  rw [exchanges, Script.project_flatMap, range_eq_append_cons hr, peersOf_eq hr,
    List.flatMap_append, List.flatMap_append, List.flatMap_cons, List.flatMap_congr hsmaller,
    List.flatMap_eq_nil_iff.mpr hlarger, List.append_nil, hinner]
  congr 1
  refine List.flatMap_congr fun b hb => ?_
  have hb := (List.mem_range'_1.mp hb).1
  rw [if_pos rfl, if_pos (by omega)]

theorem performs_swap (rank peer : ℕ) (s d : Slice Buf) (w : ℕ) :
    Performs (α := α) [] (swap rank peer s d w)
      (if rank < peer then [.xfer ⟨.send, peer, s, w⟩, .xfer ⟨.recv, peer, d, w⟩]
        else [.xfer ⟨.recv, peer, d, w⟩, .xfer ⟨.send, peer, s, w⟩]) := by
  by_cases h : rank < peer
  · rw [swap, if_pos h, if_pos h]
    exact (Performs.send _ _ _).andThen (.recv _ _ _)
  · rw [swap, if_neg h, if_neg h]
    exact (Performs.recv _ _ _).andThen (.send _ _ _)

theorem mem_paired {n mask r : ℕ} : r ∈ paired n mask ↔ r < n ∧ r ^^^ mask < n := by
  simp [paired]

theorem nodup_paired (n mask : ℕ) : (paired n mask).Nodup := List.nodup_range.filter _

theorem pair_sublist_paired {n mask a b : ℕ} (hab : a < b) (ha : a ∈ paired n mask)
    (hb : b ∈ paired n mask) : [a, b].Sublist (paired n mask) := by
  have hpair := (pair_sublist_range hab (mem_paired.mp hb).1).filter
    fun r => decide (r ^^^ mask < n)
  have hboth : [a, b].filter (fun r => decide (r ^^^ mask < n)) = [a, b] := by
    simp [(mem_paired.mp ha).2, (mem_paired.mp hb).2]
  rwa [hboth] at hpair

/-- In a doubling round a paired rank exchanges with its peer. -/
theorem project_hops_paired {n mask r : ℕ} (hmask : 0 < mask) (hr : r ∈ paired n mask)
    (s d : ℕ → Slice Buf) (w : ℕ) :
    Script.project r (Script.hops (· ^^^ mask) (paired n mask) s d w : Script ℕ Buf α)
      = if r < r ^^^ mask then
          [.xfer ⟨.send, r ^^^ mask, s r, w⟩, .xfer ⟨.recv, r ^^^ mask, d r, w⟩]
        else [.xfer ⟨.recv, r ^^^ mask, d r, w⟩, .xfer ⟨.send, r ^^^ mask, s r, w⟩] := by
  have hpeer : r ^^^ mask ∈ paired n mask := by
    rw [mem_paired, xor_mask_cancel]
    exact (mem_paired.mp hr).symm
  have hne := xor_mask_ne hmask r
  have hinj : ∀ q ∈ paired n mask, q ^^^ mask = r → q = r ^^^ mask := by
    rintro q - rfl
    exact (xor_mask_cancel q mask).symm
  by_cases h : r < r ^^^ mask
  · rw [if_pos h]
    exact Script.project_hops_send_recv (nodup_paired n mask) (pair_sublist_paired h hr hpeer)
      (xor_mask_cancel r mask) hne hinj s d w
  · rw [if_neg h]
    exact Script.project_hops_recv_send (nodup_paired n mask)
      (pair_sublist_paired (by omega) hpeer hr) (xor_mask_cancel r mask) hne hinj s d w

/-- A rank without a peer sits the round out. -/
theorem project_doublingStep_unpaired {n mask r : ℕ} (hr : r ∉ paired n mask)
    (s d : ℕ → Slice Buf) (w : ℕ) (perform : ℕ → ℕ → RankMem α → RankMem α) (blocks : ℕ) :
    Script.project r (doublingStep n w s d perform blocks mask) = [] := by
  have hhops : Script.project r
      (Script.hops (· ^^^ mask) (paired n mask) s d w : Script ℕ Buf α) = [] := by
    refine (Script.project_hops (List.nil_sublist _) (nodup_paired n mask) ?_ s d w).trans rfl
    rintro q hq (rfl | rfl)
    · exact absurd hq hr
    · refine absurd ?_ hr
      rw [mem_paired, xor_mask_cancel]
      exact (mem_paired.mp hq).symm
  rw [doublingStep, Script.project_append, hhops, Script.project_flatMap]
  exact List.flatMap_eq_nil_iff.mpr fun i _ => Script.project_locals_of_not_mem _ hr

theorem project_doublingStep {n mask r : ℕ} (hmask : 0 < mask) (hr : r ∈ paired n mask)
    (s d : ℕ → Slice Buf) (w : ℕ) (perform : ℕ → ℕ → RankMem α → RankMem α) (blocks : ℕ) :
    Script.project r (doublingStep n w s d perform blocks mask)
      = (if r < r ^^^ mask then
            [.xfer ⟨.send, r ^^^ mask, s r, w⟩, .xfer ⟨.recv, r ^^^ mask, d r, w⟩]
          else [.xfer ⟨.recv, r ^^^ mask, d r, w⟩, .xfer ⟨.send, r ^^^ mask, s r, w⟩])
        ++ (List.range blocks).flatMap fun i => [.act (perform i r)] := by
  rw [doublingStep, Script.project_append, project_hops_paired hmask hr, Script.project_flatMap]
  congr 1
  exact List.flatMap_congr fun i _ => Script.project_locals (nodup_paired n mask) _ hr

/-! ### The collectives perform their scripts -/

section RootedPerforms

variable {n root r : ℕ} (hr : r < n) (count : ℕ) (dtype : DataType)
include hr

theorem mem_peersOf_root (hne : r ≠ root) : r ∈ peersOf n root :=
  mem_peersOf.mpr ⟨hr, hne⟩

omit hr in
theorem root_mem_peersOf (hroot : root < n) (hne : r ≠ root) : root ∈ peersOf n r :=
  mem_peersOf.mpr ⟨hroot, hne.symm⟩

variable (hroot : root < n)
include hroot

theorem performs_broadcast (buffer : ℕ → Buf) :
    Performs (α := α) [] (broadcast n r (neighborComm n r) (buffer r) count dtype root)
      (Script.project r (broadcastScript n count (getDataTypeSize dtype) root buffer)) := by
  rw [broadcastScript]
  by_cases hrt : r = root
  · subst hrt
    let thread : ℕ → Xfer ℕ Buf :=
      fun p => ⟨.send, p, ⟨buffer r, 0, count⟩, getDataTypeSize dtype⟩
    have hthreads : (peersOf n r).map
        (broadcastThread (neighborComm n r) (buffer r) count (getDataTypeSize dtype))
          = ((peersOf n r).map thread).map some := by
      rw [List.map_map]
      refine List.map_congr_left fun p hp => ?_
      simp [broadcastThread, getTransport_neighborComm hp, thread]
    have hkeys : (((peersOf n r).map thread).map Xfer.key).Nodup := by
      rw [List.map_map]
      exact (nodup_peersOf n r).map fun p q h => congrArg Prod.snd h
    have hsome : (((peersOf n r).map thread).map some).reduceOption
        = (peersOf n r).map thread := by
      show (((peersOf n r).map thread).map some).filterMap id = _
      rw [List.filterMap_map]
      exact List.filterMap_some
    have hall : (((peersOf n r).map thread).map some).all Option.isSome = true := by simp
    have hperforms := (Performs.all (α := α) (.refl _) hkeys).andThen .done
    rw [Script.project_outward_root, broadcast, if_pos rfl, hthreads]
    dsimp only
    rw [hsome, hall]
    simpa [thread, Function.comp_def] using hperforms
  · rw [Script.project_outward_peer (nodup_peersOf n root) (not_mem_peersOf n root)
      (mem_peersOf_root hr hrt), broadcast, if_neg hrt,
      withTransport_neighborComm (root_mem_peersOf hroot hrt)]
    exact .recv _ _ _

theorem performs_gather (sendBuf recvBuf : ℕ → Buf) :
    Performs (α := α) [] (gather n r (neighborComm n r) (sendBuf r) (recvBuf r) count dtype root)
      (Script.project r
        (gatherScript n count (getDataTypeSize dtype) root sendBuf recvBuf)) := by
  rw [gatherScript, Script.project_cons]
  by_cases hrt : r = root
  · subst hrt
    rw [Script.project_inward_root (not_mem_peersOf n r), gather, if_pos rfl, Event.project,
      if_pos rfl, List.singleton_append]
    refine .act (Performs.forEach fun p hp => ?_)
    rw [withTransport_neighborComm hp]
    exact .recv _ _ _
  · rw [Script.project_inward_peer (nodup_peersOf n root) (not_mem_peersOf n root)
      (mem_peersOf_root hr hrt), gather, if_neg hrt, Event.project, if_neg hrt,
      withTransport_neighborComm (root_mem_peersOf hroot hrt)]
    exact .send _ _ _

theorem performs_scatter (sendBuf recvBuf : ℕ → Buf) :
    Performs (α := α) [] (scatter n r (neighborComm n r) (sendBuf r) (recvBuf r) count dtype root)
      (Script.project r
        (scatterScript n count (getDataTypeSize dtype) root sendBuf recvBuf)) := by
  rw [scatterScript, Script.project_cons]
  by_cases hrt : r = root
  · subst hrt
    rw [Script.project_outward_root, scatter, if_pos rfl, Event.project, if_pos rfl,
      List.singleton_append, List.map_eq_flatMap]
    refine .act (Performs.forEach fun p hp => ?_)
    rw [withTransport_neighborComm hp]
    exact .send _ _ _
  · rw [Script.project_outward_peer (nodup_peersOf n root) (not_mem_peersOf n root)
      (mem_peersOf_root hr hrt), scatter, if_neg hrt, Event.project, if_neg hrt,
      withTransport_neighborComm (root_mem_peersOf hroot hrt)]
    exact .recv _ _ _

theorem performs_reduce (sendBuf recvBuf : ℕ → Buf) (red : Reducer α) :
    Performs [] (reduce n r (neighborComm n r) (sendBuf r) (recvBuf r) count dtype red root)
      (Script.project r
        (reduceScript n count (getDataTypeSize dtype) root sendBuf recvBuf red)) := by
  rw [reduceScript, Script.project_cons]
  by_cases hrt : r = root
  · subst hrt
    rw [Script.project_inward_root (not_mem_peersOf n r), reduce, if_pos rfl, Event.project,
      if_pos rfl, List.singleton_append]
    refine .act (Performs.forEach fun p hp => ?_)
    rw [withTransport_neighborComm hp]
    exact (Performs.recv _ _ _).andThen (.doAct _)
  · rw [Script.project_inward_peer (nodup_peersOf n root) (not_mem_peersOf n root)
      (mem_peersOf_root hr hrt), reduce, if_neg hrt, Event.project, if_neg hrt,
      withTransport_neighborComm (root_mem_peersOf hroot hrt)]
    exact .send _ _ _

end RootedPerforms

section SymmetricPerforms

variable {n r : ℕ} (hr : r < n) (count : ℕ) (dtype : DataType)
include hr

/-- The loops of `AllGather` and `AllToAll`. -/
theorem performs_exchanges (s d : ℕ → ℕ → Slice Buf) (w : ℕ) :
    Performs (α := α) []
      (forEach (peersOf n r) fun peer => withTransport (neighborComm n r) peer fun transport =>
        swap r transport (s r peer) (d r peer) w)
      (Script.project r (exchanges n w s d)) := by
  rw [project_exchanges hr]
  refine Performs.forEach fun p hp => ?_
  rw [withTransport_neighborComm hp]
  exact performs_swap _ _ _ _ _

theorem performs_allGather (sendBuf recvBuf : ℕ → Buf) :
    Performs (α := α) [] (allGather n r (neighborComm n r) (sendBuf r) (recvBuf r) count dtype)
      (Script.project r
        (allGatherScript n count (getDataTypeSize dtype) sendBuf recvBuf)) := by
  rw [allGatherScript, Script.project_append, Script.project_locals_range hr, List.singleton_append]
  exact .act (performs_exchanges hr (fun r _ => ⟨sendBuf r, 0, count⟩)
    (fun r p => ⟨recvBuf r, p * count, count⟩) _)

theorem performs_allToAll (sendBuf recvBuf : ℕ → Buf) :
    Performs (α := α) [] (allToAll n r (neighborComm n r) (sendBuf r) (recvBuf r) count dtype)
      (Script.project r
        (allToAllScript n count (getDataTypeSize dtype) sendBuf recvBuf)) := by
  rw [allToAllScript, Script.project_append, Script.project_locals_range hr, List.singleton_append]
  exact .act (performs_exchanges hr (fun r p => ⟨sendBuf r, p * count, count⟩)
    (fun r p => ⟨recvBuf r, p * count, count⟩) _)

/-- Rounds of the doubling loops: `k` is what a rank does with the data of its peer. -/
theorem performs_doubling {k : RankProg α} {L : List ℕ} (hL : ∀ mask ∈ L, 0 < mask)
    (s d : ℕ → Slice Buf) (w : ℕ) (perform : ℕ → ℕ → RankMem α → RankMem α) (blocks : ℕ)
    (hk : Performs [] k ((List.range blocks).flatMap fun i => [.act (perform i r)])) :
    Performs []
      (forEach L fun mask =>
        let peer := r ^^^ mask
        if peer < n then
          withTransport (neighborComm n r) peer fun transport =>
            (swap r transport (s r) (d r) w).andThen k
        else ret true)
      (Script.project r (L.flatMap (doublingStep n w s d perform blocks))) := by
  rw [Script.project_flatMap]
  refine Performs.forEach fun mask hmask => ?_
  have hpos := hL mask hmask
  by_cases hpeer : r ^^^ mask < n
  · have hmem : r ^^^ mask ∈ peersOf n r := mem_peersOf.mpr ⟨hpeer, xor_mask_ne hpos r⟩
    rw [project_doublingStep hpos (mem_paired.mpr ⟨hr, hpeer⟩), if_pos hpeer,
      withTransport_neighborComm hmem]
    exact (performs_swap _ _ _ _ _).andThen hk
  · rw [project_doublingStep_unpaired fun h => hpeer (mem_paired.mp h).2, if_neg hpeer]
    exact .done

theorem performs_reduceScatter (sendBuf recvBuf : ℕ → Buf) (red : Reducer α) :
    Performs [] (reduceScatter n r (neighborComm n r) (sendBuf r) (recvBuf r) count dtype red)
      (Script.project r
        (reduceScatterScript n count (getDataTypeSize dtype) sendBuf recvBuf red)) := by
  rw [reduceScatterScript, Script.project_append, Script.project_append,
    Script.project_locals_range hr, Script.project_locals_range hr, List.singleton_append]
  refine .act (Performs.andThen ?_ (.doAct _))
  refine performs_doubling hr (fun _ => mask_pos) (fun _ => ⟨.tempRecvbuf, 0, count * n⟩)
    (fun _ => ⟨.tempBuf, 0, count * n⟩) _ _ n ?_
  exact Performs.forEach fun i _ => .doAct _

theorem performs_allReduce (sendBuf recvBuf : ℕ → Buf) (red : Reducer α) :
    Performs [] (allReduce n r (neighborComm n r) (sendBuf r) (recvBuf r) count dtype red)
      (Script.project r
        (allReduceScript n count (getDataTypeSize dtype) sendBuf recvBuf red)) := by
  rw [allReduceScript, Script.project_append, Script.project_locals_range hr, List.singleton_append]
  refine .act (performs_doubling hr (fun _ => mask_pos) (fun r => ⟨recvBuf r, 0, count⟩)
    (fun _ => ⟨.tempBuffer, 0, count⟩) _ _ 1 ?_)
  exact .doAct _

theorem performs_barrier :
    Performs (α := α) [] (barrier n r (neighborComm n r))
      (Script.project r (barrierScript n)) := by
  have hmem {p : ℕ} : p ∈ List.range' 1 (n - 1) ↔ p < n ∧ p ≠ 0 := by
    rw [List.mem_range'_1]
    omega
  have hzero : 0 ∉ List.range' 1 (n - 1) := fun h => (hmem.mp h).2 rfl
  rw [barrierScript, Script.project_append]
  by_cases hr0 : r = 0
  · subst hr0
    have hpeer {p : ℕ} (hp : p ∈ List.range' 1 (n - 1)) : p ∈ peersOf n 0 :=
      mem_peersOf.mpr (hmem.mp hp)
    rw [Script.project_inward_root hzero, Script.project_outward_root, barrier, if_pos rfl]
    refine Performs.andThen (Performs.forEach fun p hp => ?_) ?_
    · rw [withTransport_neighborComm (hpeer hp)]
      exact .recv _ _ _
    · rw [List.map_eq_flatMap]
      refine Performs.forEach fun p hp => ?_
      rw [withTransport_neighborComm (hpeer hp)]
      exact .send _ _ _
  · have hrmem := hmem.mpr ⟨hr, hr0⟩
    have hroot : 0 ∈ peersOf n r := mem_peersOf.mpr ⟨by omega, Ne.symm hr0⟩
    rw [Script.project_inward_peer List.nodup_range' hzero hrmem,
      Script.project_outward_peer List.nodup_range' hzero hrmem, barrier, if_neg hr0,
      withTransport_neighborComm hroot]
    exact (Performs.send _ _ _).andThen (.recv _ _ _)

end SymmetricPerforms

/-! ### Transfers are between two ranks and of one length -/

section Wf

variable {n root : ℕ} (count w : ℕ)

theorem wf_exchanges {s d : ℕ → ℕ → Slice Buf}
    (hlen : ∀ r p q t, (s r p).len = (d q t).len) :
    ∀ e ∈ (exchanges n w s d : Script ℕ Buf α), e.Wf (· < n) := by
  refine Script.wf_flatMap fun a ha => Script.wf_flatMap fun b hb e he => ?_
  have ha := List.mem_range.mp ha
  have hb := List.mem_range'_1.mp hb
  rcases List.mem_pair.mp he with rfl | rfl
  · exact ⟨ha, by omega, by omega, hlen a b b a⟩
  · exact ⟨by omega, ha, by omega, hlen b a a b⟩

theorem wf_doubling {s d : ℕ → Slice Buf} {perform : ℕ → ℕ → RankMem α → RankMem α}
    {blocks : ℕ} (hlen : ∀ q t, (s q).len = (d t).len) :
    ∀ e ∈ (masks n).flatMap (doublingStep n w s d perform blocks), e.Wf (· < n) := by
  refine Script.wf_flatMap fun mask hmask => List.forall_mem_append.mpr
    ⟨Script.wf_hops fun q hq => ?_, Script.wf_flatMap fun i _ => ?_⟩
  · obtain ⟨hq, hpeer⟩ := mem_paired.mp hq
    exact ⟨hq, hpeer, (xor_mask_ne (mask_pos hmask) q).symm, hlen _ _⟩
  · exact Script.wf_locals (fun q hq => (mem_paired.mp hq).1) _

theorem wf_barrierScript (hn : 0 < n) :
    ∀ e ∈ (barrierScript n : Script ℕ Buf α), e.Wf (· < n) := by
  have hlt : ∀ p ∈ List.range' 1 (n - 1), p < n := fun p hp => by
    have := (List.mem_range'_1.mp hp).2
    omega
  have hzero : 0 ∉ List.range' 1 (n - 1) := fun h => by
    have := (List.mem_range'_1.mp h).1
    omega
  exact List.forall_mem_append.mpr ⟨Script.wf_inward hn hlt hzero fun _ _ => rfl,
    Script.wf_outward hn hlt hzero fun _ _ => rfl⟩

end Wf

/-! ### No races

Only the root of `Broadcast` has several transfers outstanding, all of them
sends. -/

theorem raceFree_withTransport {comm : Communicator} {peer : ℕ} {k : ℕ → RankProg α}
    (h : ∀ transport, (k transport).RaceFree) : (withTransport comm peer k).RaceFree := by
  unfold withTransport
  split
  · exact h _
  · exact trivial

section RaceFree

variable (n r : ℕ) (comm : Communicator) (sendBuf recvBuf : Buf) (count : ℕ)
  (dtype : DataType) (red : Reducer α) (root : ℕ)

theorem raceFree_swap (peer : ℕ) (s d : Slice Buf) (w : ℕ) :
    (swap r peer s d w : RankProg α).RaceFree := by
  unfold swap
  split_ifs <;> simp

theorem raceFree_broadcast (buffer : Buf) :
    (broadcast n r comm buffer count dtype root : RankProg α).RaceFree := by
  unfold broadcast
  dsimp only
  split_ifs
  · refine (raceFree_all ?_).andThen trivial
    have hsend : ∀ x ∈ ((peersOf n root).map
        (broadcastThread comm buffer count (getDataTypeSize dtype))).reduceOption,
        x.dir = .send := by
      intro x hx
      obtain ⟨o, ho, hx⟩ := List.mem_filterMap.mp hx
      obtain ⟨p, -, rfl⟩ := List.mem_map.mp ho
      obtain ⟨t, -, rfl⟩ := Option.map_eq_some_iff.mp hx
      rfl
    exact List.pairwise_of_forall_mem_list fun x hx y hy => .inl ⟨hsend x hx, hsend y hy⟩
  · exact raceFree_withTransport fun _ => raceFree_recv _ _ _

theorem raceFree_gather :
    (gather n r comm sendBuf recvBuf count dtype root : RankProg α).RaceFree := by
  unfold gather
  dsimp only
  split_ifs
  · exact raceFree_forEach fun _ _ => raceFree_withTransport fun _ => raceFree_recv _ _ _
  · exact raceFree_withTransport fun _ => raceFree_send _ _ _

theorem raceFree_scatter :
    (scatter n r comm sendBuf recvBuf count dtype root : RankProg α).RaceFree := by
  unfold scatter
  dsimp only
  split_ifs
  · exact raceFree_forEach fun _ _ => raceFree_withTransport fun _ => raceFree_send _ _ _
  · exact raceFree_withTransport fun _ => raceFree_recv _ _ _

theorem raceFree_reduce :
    (reduce n r comm sendBuf recvBuf count dtype red root).RaceFree := by
  unfold reduce
  dsimp only
  split_ifs
  · exact raceFree_forEach fun _ _ => raceFree_withTransport fun _ =>
      (raceFree_recv _ _ _).andThen trivial
  · exact raceFree_withTransport fun _ => raceFree_send _ _ _

theorem raceFree_allGather :
    (allGather n r comm sendBuf recvBuf count dtype : RankProg α).RaceFree :=
  raceFree_forEach fun _ _ => raceFree_withTransport fun _ => raceFree_swap _ _ _ _ _

theorem raceFree_allToAll :
    (allToAll n r comm sendBuf recvBuf count dtype : RankProg α).RaceFree :=
  raceFree_forEach fun _ _ => raceFree_withTransport fun _ => raceFree_swap _ _ _ _ _

theorem raceFree_reduceScatter :
    (reduceScatter n r comm sendBuf recvBuf count dtype red).RaceFree := by
  refine RaceFree.andThen (raceFree_forEach fun mask _ => ?_) trivial
  dsimp only
  split_ifs
  · exact raceFree_withTransport fun _ => (raceFree_swap _ _ _ _ _).andThen
      (raceFree_forEach fun _ _ => trivial)
  · exact trivial

theorem raceFree_allReduce :
    (allReduce n r comm sendBuf recvBuf count dtype red).RaceFree := by
  refine raceFree_forEach fun mask _ => ?_
  dsimp only
  split_ifs
  · exact raceFree_withTransport fun _ => (raceFree_swap _ _ _ _ _).andThen trivial
  · exact trivial

theorem raceFree_barrier : (barrier n r comm : RankProg α).RaceFree := by
  unfold barrier
  dsimp only
  split_ifs
  · exact (raceFree_forEach fun _ _ => raceFree_withTransport fun _ => raceFree_recv _ _ _).andThen
      (raceFree_forEach fun _ _ => raceFree_withTransport fun _ => raceFree_send _ _ _)
  · exact raceFree_withTransport fun _ => (raceFree_send _ _ _).andThen (raceFree_recv _ _ _)

end RaceFree

/-! ### Schedules of calls -/

/-- The script of a call. -/
def callScript (n : ℕ) : Call α → Script ℕ Buf α
  | .broadcast buffer count dtype root =>
      broadcastScript n count (getDataTypeSize dtype) root (userBuf buffer)
  | .gather sendBuf recvBuf count dtype root =>
      gatherScript n count (getDataTypeSize dtype) root (userBuf sendBuf) (userBuf recvBuf)
  | .scatter sendBuf recvBuf count dtype root =>
      scatterScript n count (getDataTypeSize dtype) root (userBuf sendBuf) (userBuf recvBuf)
  | .reduce sendBuf recvBuf count dtype red root =>
      reduceScript n count (getDataTypeSize dtype) root (userBuf sendBuf) (userBuf recvBuf) red
  | .allGather sendBuf recvBuf count dtype =>
      allGatherScript n count (getDataTypeSize dtype) (userBuf sendBuf) (userBuf recvBuf)
  | .reduceScatter sendBuf recvBuf count dtype red =>
      reduceScatterScript n count (getDataTypeSize dtype) (userBuf sendBuf) (userBuf recvBuf) red
  | .allReduce sendBuf recvBuf count dtype red =>
      allReduceScript n count (getDataTypeSize dtype) (userBuf sendBuf) (userBuf recvBuf) red
  | .allToAll sendBuf recvBuf count dtype =>
      allToAllScript n count (getDataTypeSize dtype) (userBuf sendBuf) (userBuf recvBuf)
  | .barrier => barrierScript n

/-- What one rank runs when all ranks make the calls `cs` one after the other,
each with its transports to all others. -/
def session (n : ℕ) (cs : List (Call α)) (r : ℕ) : RankProg α :=
  inTurn (cs.map (call n r (neighborComm n r)))

/-- All ranks make the call `c`; whoever is not a rank has nothing to do. -/
def callTeam (n : ℕ) (c : Call α) : ℕ → RankProg α :=
  team (· < n) fun r => call n r (neighborComm n r) c

theorem schedule_broadcast {n root : ℕ} (hroot : root < n) (buffer : ℕ → Buf) (count : ℕ)
    (dtype : DataType) :
    Schedule (α := α) (· < n)
      (fun r => broadcast n r (neighborComm n r) (buffer r) count dtype root)
      (broadcastScript n count (getDataTypeSize dtype) root buffer) :=
  ⟨fun _ hr => performs_broadcast hr count dtype hroot buffer,
    Script.wf_outward hroot (fun _ hp => (mem_peersOf.mp hp).1) (not_mem_peersOf n root)
      fun _ _ => rfl,
    fun _ _ => raceFree_broadcast _ _ _ _ _ _ _⟩

section Schedules

variable {n : ℕ} (hn : 1 ≤ n)
include hn

/-- **Every collective of the full mesh performs its script**, for every world
size, root and count. -/
theorem schedule_call {c : Call α} (hc : c.Valid n) :
    Schedule (· < n) (fun r => call n r (neighborComm n r) c) (callScript n c) := by
  have hpeers {root p : ℕ} (hp : p ∈ peersOf n root) : p < n := (mem_peersOf.mp hp).1
  cases c with
  | broadcast buffer count dtype root =>
      exact schedule_broadcast hc (userBuf buffer) count dtype
  | gather sendBuf recvBuf count dtype root =>
      exact ⟨fun r hr => performs_gather hr count dtype hc (userBuf sendBuf) (userBuf recvBuf),
        List.forall_mem_cons.mpr ⟨hc, Script.wf_inward hc (fun p => hpeers)
          (not_mem_peersOf n root) fun _ _ => rfl⟩,
        fun r _ => raceFree_gather _ _ _ _ _ _ _ _⟩
  | scatter sendBuf recvBuf count dtype root =>
      exact ⟨fun r hr => performs_scatter hr count dtype hc (userBuf sendBuf) (userBuf recvBuf),
        List.forall_mem_cons.mpr ⟨hc, Script.wf_outward hc (fun p => hpeers)
          (not_mem_peersOf n root) fun _ _ => rfl⟩,
        fun r _ => raceFree_scatter _ _ _ _ _ _ _ _⟩
  | reduce sendBuf recvBuf count dtype red root =>
      exact ⟨fun r hr => performs_reduce hr count dtype hc (userBuf sendBuf) (userBuf recvBuf) red,
        List.forall_mem_cons.mpr ⟨hc, Script.wf_inward hc (fun p => hpeers)
          (not_mem_peersOf n root) fun _ _ => rfl⟩,
        fun r _ => raceFree_reduce _ _ _ _ _ _ _ _ _⟩
  | allGather sendBuf recvBuf count dtype =>
      exact ⟨fun r hr => performs_allGather hr count dtype (userBuf sendBuf) (userBuf recvBuf),
        List.forall_mem_append.mpr ⟨Script.wf_locals_range _, wf_exchanges _ fun _ _ _ _ => rfl⟩,
        fun r _ => raceFree_allGather _ _ _ _ _ _ _⟩
  | reduceScatter sendBuf recvBuf count dtype red =>
      exact ⟨fun r hr =>
          performs_reduceScatter hr count dtype (userBuf sendBuf) (userBuf recvBuf) red,
        List.forall_mem_append.mpr ⟨Script.wf_locals_range _, List.forall_mem_append.mpr
          ⟨wf_doubling _ fun _ _ => rfl, Script.wf_locals_range _⟩⟩,
        fun r _ => raceFree_reduceScatter _ _ _ _ _ _ _ _⟩
  | allReduce sendBuf recvBuf count dtype red =>
      exact ⟨fun r hr => performs_allReduce hr count dtype (userBuf sendBuf) (userBuf recvBuf) red,
        List.forall_mem_append.mpr ⟨Script.wf_locals_range _, wf_doubling _ fun _ _ => rfl⟩,
        fun r _ => raceFree_allReduce _ _ _ _ _ _ _ _⟩
  | allToAll sendBuf recvBuf count dtype =>
      exact ⟨fun r hr => performs_allToAll hr count dtype (userBuf sendBuf) (userBuf recvBuf),
        List.forall_mem_append.mpr ⟨Script.wf_locals_range _, wf_exchanges _ fun _ _ _ _ => rfl⟩,
        fun r _ => raceFree_allToAll _ _ _ _ _ _ _⟩
  | barrier =>
      exact ⟨fun r hr => performs_barrier hr, wf_barrierScript hn,
        fun r _ => raceFree_barrier _ _ _⟩

/-- Some run of a call completes. -/
theorem exists_completed {c : Call α} (hc : c.Valid n) (m : ℕ → RankMem α) :
    ∃ s, Fifo.step.Reaches (Fifo.init (callTeam n c) m) s ∧ ∀ r < n, (s.node r).Finished := by
  obtain ⟨s, hs, hret⟩ := (schedule_call hn hc).exists_completed m
  exact ⟨s, hs, fun r _ => ⟨true, hret r⟩⟩

/-- What a completed run of a call leaves in the memories is what its script
computes. -/
theorem mem_of_completed {c : Call α} {m : ℕ → RankMem α} {s : Fifo ℕ Buf α}
    (hs : Fifo.step.Reaches (Fifo.init (callTeam n c) m) s)
    (hdone : ∀ r < n, (s.node r).Finished) (hc : c.Valid n) (r : ℕ) :
    (s.node r).mem = Script.exec (callScript n c) m r :=
  (((schedule_call hn hc).completed m hs hdone).1 r).2

theorem schedule_session {cs : List (Call α)} (hcs : ∀ c ∈ cs, c.Valid n) :
    Schedule (· < n) (session n cs) (cs.flatMap (callScript n)) :=
  Schedule.inTurn fun c hc => schedule_call hn (hcs c hc)

/-- **Any sequence of calls of the full mesh's collectives is free of deadlocks
and leaves the channels balanced**, whether or not the world size is a power of
two. -/
theorem fullMesh_session_balanced {cs : List (Call α)} (hcs : ∀ c ∈ cs, c.Valid n) :
    Balanced (· < n) (session n cs) :=
  (schedule_session hn hcs).balanced

end Schedules

/-- Three ranks, where rank 1 has no peer in the second doubling round. -/
theorem fullMesh_session_balanced_three :
    Balanced (· < 3) (session 3
      [.allReduce id id 5 .int32 (Reducer.performReduce (w := 32) .sum 3), .barrier,
        .gather id id 1 .float64 2]) :=
  fullMesh_session_balanced (by decide) (by simp [Call.Valid])

end MiniCcl.TopologyFullMesh
