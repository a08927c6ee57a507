/-
MiniCcl/Bootstrap.lean

`Bootstrap::RunMaster`, given what its socket calls return.

The master stores each `NodeInfo` at the index that it has received with it, without
a check.  An index outside the table is a write outside the table, and a rank that
comes twice leaves an entry as it was after the `resize`.  With well-formed messages
the table that it accepts is complete if and only if the ranks are those of the
workers, each once: `master_complete_iff`.
-/
import MiniCcl.NodeCodec
import Mathlib.Data.List.Perm.Subperm
import Mathlib.Data.List.Nodup

namespace MiniCcl.Bootstrap

open Utils
open scoped List

/-! ### RunMaster -/

inductive MasterFault
  | decode (fault : Fault)
  | writeOutside (index : ℤ)
  deriving DecidableEq, Repr

/-- `RecvNodeInfo`, with the frame of `RecvAll`. -/
def recvNodeInfo : Option (List UInt8) → Except Fault (Option NodeInfo)
  | none => .ok none
  | some buffer => ((decodeNodeInfo buffer).run 0).map fun r => some r.1

/-- `all_nodes[node_info.rank] = node_info` -/
def store (allNodes : List NodeInfo) (info : NodeInfo) : List NodeInfo :=
  allNodes.set info.rank.toInt.toNat info

/-- The index is one of the table. -/
def InTable (allNodes : List NodeInfo) (info : NodeInfo) : Prop :=
  0 ≤ info.rank.toInt ∧ info.rank.toInt < allNodes.length

instance (allNodes : List NodeInfo) (info : NodeInfo) : Decidable (InTable allNodes info) :=
  inferInstanceAs (Decidable (_ ∧ _))

/-- The loop over `worker_socks`. -/
def recvNodeInfos :
    List (Option (List UInt8)) → List NodeInfo → Except MasterFault (Bool × List NodeInfo)
  | [], allNodes => .ok (true, allNodes)
  | frame :: frames, allNodes =>
      match recvNodeInfo frame with
      | .error fault => .error (.decode fault)
      | .ok none => .ok (false, allNodes)
      | .ok (some info) =>
          if InTable allNodes info then recvNodeInfos frames (store allNodes info)
          else .error (.writeOutside info.rank.toInt)

/-- What the socket calls of `RunMaster` return. -/
structure MasterCalls where
  createListenSocket : Bool
  acceptConnections : Bool
  frames : List (Option (List UInt8))
  broadcastAllNodes : Bool

/-- The table with the master's own entry. -/
def masterTable (worldSize : ℕ) (master : NodeInfo) : List NodeInfo :=
  (List.replicate worldSize NodeInfo.default).set 0 master

def runMaster (worldSize : ℕ) (localIp : List UInt8) (dataPort : BitVec 16)
    (calls : MasterCalls) : Except MasterFault (Bool × List NodeInfo) :=
  let allNodes := masterTable worldSize ⟨0, localIp, dataPort⟩
  if !calls.createListenSocket then .ok (false, allNodes)
  else if !calls.acceptConnections then .ok (false, allNodes)
  else
    match recvNodeInfos calls.frames allNodes with
    | .error fault => .error fault
    | .ok (false, allNodes) => .ok (false, allNodes)
    | .ok (true, allNodes) => .ok (calls.broadcastAllNodes, allNodes)

/-! ### The table -/

/-- Nothing goes wrong, and if true is returned, the entry of each rank has that rank
and the entry of the master is its own. -/
def Complete (worldSize : ℕ) (master : NodeInfo) : Except MasterFault (Bool × List NodeInfo) → Prop
  | .error _ => False
  | .ok (ok, allNodes) => ok = true → allNodes.length = worldSize ∧ allNodes[0]? = some master ∧
      ∀ i < worldSize, ∃ info, allNodes[i]? = some info ∧ info.rank.toInt = i

variable {infos allNodes : List NodeInfo} {info : NodeInfo}

@[simp] theorem length_store (allNodes : List NodeInfo) (info : NodeInfo) :
    (store allNodes info).length = allNodes.length :=
  List.length_set

theorem length_foldl_store (infos allNodes : List NodeInfo) :
    (infos.foldl store allNodes).length = allNodes.length := by
  induction infos generalizing allNodes with
  | nil => rfl
  | cons info infos ih => rw [List.foldl_cons, ih, length_store]

theorem recvNodeInfo_encode (h : info.ipAddr.length < 2 ^ 31) :
    recvNodeInfo (some (encodeNodeInfo [] info)) = .ok (some info) := by
  have hdecode := decodes_nodeInfo h [] []
  rw [List.nil_append, List.append_nil] at hdecode
  show ((decodeNodeInfo (encodeNodeInfo [] info)).run ([] : List UInt8).length).map _ = _
  rw [hdecode]
  rfl

/-- With well-formed messages the loop stores them one after the other, up to the first
one that is outside the table. -/
theorem recvNodeInfos_map (hip : ∀ info ∈ infos, info.ipAddr.length < 2 ^ 31)
    (allNodes : List NodeInfo) :
    recvNodeInfos (infos.map fun info => some (encodeNodeInfo [] info)) allNodes
        = .ok (true, infos.foldl store allNodes) ∧ (∀ info ∈ infos, InTable allNodes info) ∨
      ∃ i, recvNodeInfos (infos.map fun info => some (encodeNodeInfo [] info)) allNodes
        = .error (.writeOutside i) ∧ ¬ ∀ info ∈ infos, InTable allNodes info := by
  induction infos generalizing allNodes with
  | nil => exact .inl ⟨rfl, fun info hinfo => absurd hinfo List.not_mem_nil⟩
  | cons info infos ih =>
      have hrest := ih (fun info' h => hip info' (List.mem_cons_of_mem info h))
        (store allNodes info)
      simp only [List.map_cons, recvNodeInfos, recvNodeInfo_encode (hip info List.mem_cons_self)]
      have hin : ∀ info', InTable (store allNodes info) info' ↔ InTable allNodes info' := by
        intro info'
        rw [InTable, InTable, length_store]
      simp only [hin] at hrest
      by_cases hinfo : InTable allNodes info
      · rw [if_pos hinfo]
        rcases hrest with ⟨heq, hall⟩ | ⟨i, heq, hnot⟩
        · refine .inl ⟨heq, fun info' h => ?_⟩
          rcases List.mem_cons.mp h with rfl | h
          · exact hinfo
          · exact hall info' h
        · exact .inr ⟨i, heq, fun hall => hnot fun info' h => hall info' (List.mem_cons_of_mem _ h)⟩
      · rw [if_neg hinfo]
        exact .inr ⟨_, rfl, fun hall => hinfo (hall info List.mem_cons_self)⟩

/-- An entry is that of a message with its rank, or what it was before. -/
theorem getElem?_foldl_store (hin : ∀ info ∈ infos, InTable allNodes info) (i : ℕ) :
    (∃ info ∈ infos, info.rank.toInt = i ∧ (infos.foldl store allNodes)[i]? = some info) ∨
      (∀ info ∈ infos, info.rank.toInt ≠ i) ∧ (infos.foldl store allNodes)[i]? = allNodes[i]? := by
  induction infos generalizing allNodes with
  | nil => exact .inr ⟨fun info hinfo => absurd hinfo List.not_mem_nil, rfl⟩
  | cons info infos ih =>
      have hinfo := hin info List.mem_cons_self
      have hrest := @ih (store allNodes info) fun info' h => by
        rw [InTable, length_store]
        exact hin info' (List.mem_cons_of_mem _ h)
      rw [List.foldl_cons]
      rcases hrest with ⟨info', hmem, hrank, hget⟩ | ⟨hne, hget⟩
      · exact .inl ⟨info', List.mem_cons_of_mem _ hmem, hrank, hget⟩
      · -- no later message has this rank
        by_cases hrank : info.rank.toInt = i
        · refine .inl ⟨info, List.mem_cons_self, hrank, ?_⟩
          have hlt : i < allNodes.length := by
            have hlt := hinfo.2
            omega
          rw [hget, store, hrank, Int.toNat_natCast, List.getElem?_set_self hlt]
        · refine .inr ⟨fun info' h => ?_, ?_⟩
          · rcases List.mem_cons.mp h with rfl | h
            · exact hrank
            · exact hne info' h
          · have hidx : info.rank.toInt.toNat ≠ i := by
              have hpos := hinfo.1
              omega
            rw [hget, store, List.getElem?_set_ne hidx]

/-! ### When the table is complete -/

theorem length_masterTable (worldSize : ℕ) (master : NodeInfo) :
    (masterTable worldSize master).length = worldSize := by
  rw [masterTable, List.length_set, List.length_replicate]

theorem getElem?_masterTable_zero {worldSize : ℕ} (h : 1 ≤ worldSize) (master : NodeInfo) :
    (masterTable worldSize master)[0]? = some master := by
  rw [masterTable, List.getElem?_set_self]
  rwa [List.length_replicate]

/-- The other entries have rank 0 at first. -/
theorem getElem?_masterTable {worldSize i : ℕ} (hi : 0 < i) (hlt : i < worldSize)
    (master : NodeInfo) : (masterTable worldSize master)[i]? = some NodeInfo.default := by
  rw [masterTable, List.getElem?_set_ne hi.ne, List.getElem?_replicate, if_pos hlt]

/-- The ranks of the workers. -/
def workerRanks (worldSize : ℕ) : List ℤ := (List.range' 1 (worldSize - 1)).map Nat.cast

theorem mem_workerRanks {worldSize : ℕ} {r : ℤ} :
    r ∈ workerRanks worldSize ↔ 1 ≤ r ∧ r < worldSize := by
  rw [workerRanks, List.mem_map]
  constructor
  · rintro ⟨i, hi, rfl⟩
    rw [List.mem_range'_1] at hi
    omega
  · rintro ⟨hpos, hlt⟩
    refine ⟨r.toNat, ?_, by omega⟩
    rw [List.mem_range'_1]
    omega

theorem nodup_workerRanks (worldSize : ℕ) : (workerRanks worldSize).Nodup :=
  List.Nodup.map Nat.cast_injective List.nodup_range'

section Master

variable {worldSize : ℕ} {localIp : List UInt8} {dataPort : BitVec 16}

theorem runMaster_eq (localIp : List UInt8) (dataPort : BitVec 16) (broadcast : Bool)
    (hip : ∀ info ∈ infos, info.ipAddr.length < 2 ^ 31)
    (hin : ∀ info ∈ infos, InTable (masterTable worldSize ⟨0, localIp, dataPort⟩) info) :
    runMaster worldSize localIp dataPort
        ⟨true, true, infos.map fun info => some (encodeNodeInfo [] info), broadcast⟩
      = .ok (broadcast, infos.foldl store (masterTable worldSize ⟨0, localIp, dataPort⟩)) := by
  rcases recvNodeInfos_map hip (masterTable worldSize ⟨0, localIp, dataPort⟩) with
    ⟨heq, -⟩ | ⟨i, -, hnot⟩
  · simp only [runMaster, heq]
    rfl
  · exact absurd hin hnot

/-- If all entries have got their rank, the ranks are those of the workers. -/
theorem perm_of_complete (hlen : infos.length = worldSize - 1)
    (hip : ∀ info ∈ infos, info.ipAddr.length < 2 ^ 31)
    (h : Complete worldSize ⟨0, localIp, dataPort⟩ (runMaster worldSize localIp dataPort
      ⟨true, true, infos.map fun info => some (encodeNodeInfo [] info), true⟩)) :
    infos.map (fun info => info.rank.toInt) ~ workerRanks worldSize := by
  -- nothing is written outside the table
  have hin : ∀ info ∈ infos, InTable (masterTable worldSize ⟨0, localIp, dataPort⟩) info := by
    rcases recvNodeInfos_map hip (masterTable worldSize ⟨0, localIp, dataPort⟩) with
      ⟨-, hin⟩ | ⟨i, heq, -⟩
    · exact hin
    · simp only [runMaster, heq] at h
      exact h.elim
  rw [runMaster_eq localIp dataPort true hip hin] at h
  obtain ⟨-, -, hranks⟩ := h rfl
  -- the entry of a worker is not the one of the `resize`
  have hsub : workerRanks worldSize ⊆ infos.map fun info => info.rank.toInt := by
    intro r hr
    obtain ⟨hpos, hlt⟩ := mem_workerRanks.mp hr
    obtain ⟨i, rfl⟩ := Int.eq_ofNat_of_zero_le (by omega : 0 ≤ r)
    obtain ⟨info, hget, hrank⟩ := hranks i (by omega)
    rcases getElem?_foldl_store hin i with ⟨info', hmem, hrank', -⟩ | ⟨-, hsame⟩
    · exact List.mem_map.mpr ⟨info', hmem, hrank'⟩
    · rw [hsame, getElem?_masterTable (by omega) (by omega)] at hget
      cases hget
      rw [show NodeInfo.default.rank.toInt = 0 from rfl] at hrank
      omega
  refine (List.Subperm.perm_of_length_le ((nodup_workerRanks worldSize).subperm hsub) ?_).symm
  rw [List.length_map, hlen, workerRanks, List.length_map, List.length_range']

/-- Workers with the right ranks fill the table. -/
theorem complete_of_perm (hn : 1 ≤ worldSize)
    (hip : ∀ info ∈ infos, info.ipAddr.length < 2 ^ 31)
    (h : infos.map (fun info => info.rank.toInt) ~ workerRanks worldSize)
    (listen accept broadcast : Bool) :
    Complete worldSize ⟨0, localIp, dataPort⟩ (runMaster worldSize localIp dataPort
      ⟨listen, accept, infos.map fun info => some (encodeNodeInfo [] info), broadcast⟩) := by
  have hrank : ∀ info ∈ infos, 1 ≤ info.rank.toInt ∧ info.rank.toInt < worldSize := by
    intro info hinfo
    exact mem_workerRanks.mp (h.mem_iff.mp (List.mem_map.mpr ⟨info, hinfo, rfl⟩))
  have hin : ∀ info ∈ infos, InTable (masterTable worldSize ⟨0, localIp, dataPort⟩) info := by
    intro info hinfo
    rw [InTable, length_masterTable]
    have hr := hrank info hinfo
    omega
  cases listen with
  | false => exact fun hfalse => nomatch hfalse
  | true =>
      cases accept with
      | false => exact fun hfalse => nomatch hfalse
      | true =>
          rw [runMaster_eq localIp dataPort broadcast hip hin]
          intro _
          have hlen := length_foldl_store infos (masterTable worldSize ⟨0, localIp, dataPort⟩)
          refine ⟨hlen.trans (length_masterTable ..), ?_, fun i hi => ?_⟩
          · rcases getElem?_foldl_store hin 0 with ⟨info, hmem, hzero, -⟩ | ⟨-, hsame⟩
            · have hr := hrank info hmem
              omega
            · rw [hsame, getElem?_masterTable_zero hn]
          · rcases getElem?_foldl_store hin i with ⟨info, -, hinfo, hget⟩ | ⟨hne, hsame⟩
            · exact ⟨info, hget, hinfo⟩
            · -- only the master sends nothing
              have hi0 : i = 0 := by
                by_contra hpos
                have hmem : (i : ℤ) ∈ workerRanks worldSize :=
                  mem_workerRanks.mpr ⟨by omega, by omega⟩
                obtain ⟨info, hinfo, heq⟩ := List.mem_map.mp (h.mem_iff.mpr hmem)
                exact hne info hinfo heq
              subst hi0
              exact ⟨_, hsame.trans (getElem?_masterTable_zero hn _), rfl⟩

/-- **The master accepts only a complete table, whatever its socket calls return, if
and only if** the ranks that it receives are those of the workers, each once. -/
theorem master_complete_iff (hn : 1 ≤ worldSize) (hlen : infos.length = worldSize - 1)
    (hip : ∀ info ∈ infos, info.ipAddr.length < 2 ^ 31) :
    (∀ listen accept broadcast, Complete worldSize ⟨0, localIp, dataPort⟩
        (runMaster worldSize localIp dataPort
          ⟨listen, accept, infos.map fun info => some (encodeNodeInfo [] info), broadcast⟩))
      ↔ infos.map (fun info => info.rank.toInt) ~ workerRanks worldSize := by
  constructor
  · intro h
    exact perm_of_complete hlen hip (h true true true)
  · exact complete_of_perm hn hip

end Master

/-- Two workers with the ranks 2 and 1. -/
theorem master_complete_two :
    [(⟨2, [], 0⟩ : NodeInfo), ⟨1, [], 0⟩].map (fun info => info.rank.toInt) ~ workerRanks 3 ∧
      ∀ listen accept broadcast, Complete 3 ⟨0, [], 0⟩ (runMaster 3 [] 0
        ⟨listen, accept,
          [(⟨2, [], 0⟩ : NodeInfo), ⟨1, [], 0⟩].map fun info => some (encodeNodeInfo [] info),
          broadcast⟩) := by
  have hperm : [(⟨2, [], 0⟩ : NodeInfo), ⟨1, [], 0⟩].map (fun info => info.rank.toInt)
      ~ workerRanks 3 := by decide
  exact ⟨hperm, (master_complete_iff (by decide) rfl (by decide)).mpr hperm⟩

/-- Two workers with the rank 1: the master returns true, and the entry of rank 2 has
rank 0.  One worker with the rank -1: the master writes before the table. -/
theorem master_accepts_duplicate :
    runMaster 3 [] 0
        ⟨true, true, [some (encodeNodeInfo [] ⟨1, [], 5⟩), some (encodeNodeInfo [] ⟨1, [], 6⟩)], true⟩
      = .ok (true, [⟨0, [], 0⟩, ⟨1, [], 6⟩, ⟨0, [], 0⟩]) ∧
    ¬ Complete 3 ⟨0, [], 0⟩ (.ok (true, [⟨0, [], 0⟩, ⟨1, [], 6⟩, ⟨0, [], 0⟩])) ∧
    runMaster 2 [] 0 ⟨true, true, [some (encodeNodeInfo [] ⟨-1, [], 5⟩)], true⟩
      = .error (.writeOutside (-1)) := by
  refine ⟨by decide, fun h => ?_, by decide⟩
  obtain ⟨info, hget, hrank⟩ := (h rfl).2.2 2 (by decide)
  cases hget
  exact absurd hrank (by decide)

end MiniCcl.Bootstrap
