/-
MiniCcl/Traffic.lean

What the operations put on the links.

For every operation of a session and every two ranks, `Operation.sizes` lists the sizes in
bytes of the messages from one to the other, in closed form.  In a complete run of a
session, whichever order its steps come in, these are the messages, in this order
(`session_traffic`).  The links carry byte streams, and nothing else tells the receiver
where a message ends.

Of the two ways to reduce to all ranks the ring sends a rank's share of the data twice
around, in many small messages to one neighbour, and the full mesh sends everything a few
times, to different peers (`ring_allReduce_traffic`, `fullMesh_allReduce_traffic`).
-/
import Mathlib.Algebra.BigOperators.Ring.List
import MiniCcl.Links
import MiniCcl.Messages

namespace MiniCcl

/-- At most one element of a list without duplicates is `i`. -/
theorem flatMap_ite_eq {γ δ : Type*} [DecidableEq γ] {L : List γ} (hL : L.Nodup) (i : γ)
    (p : γ → Prop) [DecidablePred p] (f : γ → δ) :
    (L.flatMap fun q => if i = q ∧ p q then [f q] else []) = if i ∈ L ∧ p i then [f i] else [] := by
  by_cases hi : i ∈ L
  · rw [flatMap_of_sublist (List.singleton_sublist.mpr hi) hL fun q _ hq => ?_]
    · simp [hi]
    · exact if_neg fun h => hq (List.mem_singleton.mpr h.1.symm)
  · have hne : ¬ (i ∈ L ∧ p i) := fun h => hi h.1
    rw [if_neg hne]
    refine List.flatMap_eq_nil_iff.mpr fun q hq => if_neg ?_
    rintro ⟨rfl, -⟩
    exact hi hq

/-- One element for each number after `p`. -/
theorem flatMap_ite_lt {δ : Type*} (x : δ) (p m : ℕ) :
    ((List.range' 1 m).flatMap fun k => if p < k then [x] else []) = List.replicate (m - p) x := by
  induction m with
  | zero => simp
  | succ m ih =>
      rw [List.range'_1_concat, List.flatMap_append, ih, List.flatMap_singleton]
      by_cases hp : p < 1 + m
      · rw [if_pos hp, ← List.replicate_succ', show m - p + 1 = m + 1 - p by omega]
      · rw [if_neg hp, List.append_nil, show m - p = m + 1 - p by omega]

/-- One element for each number but `j`. -/
theorem flatMap_ite_ne {δ : Type*} (x : δ) {j n : ℕ} (hj : j < n) :
    ((List.range n).flatMap fun k => if j ≠ k then [x] else []) = List.replicate (n - 1) x := by
  have hconst : ∀ L : List ℕ, j ∉ L →
      (L.flatMap fun k => if j ≠ k then [x] else []) = List.replicate L.length x := by
    intro L hL
    rw [List.flatMap_congr (g := fun _ => [x]) fun k hk => if_pos (ne_of_mem_of_not_mem hk hL).symm,
      ← List.map_eq_flatMap, List.map_const']
  rw [range_eq_append_cons hj, List.flatMap_append, List.flatMap_cons, hconst _ (by simp),
    hconst _ (by simp), if_neg (not_not.mpr rfl), List.nil_append, List.replicate_append_replicate,
    List.length_range, List.length_range', show j + (n - 1 - j) = n - 1 by omega]

namespace Script

variable {ι β α : Type*} [DecidableEq ι]

/-- The sizes of the messages from `i` to `j`, in bytes. -/
def sizes (i j : ι) (C : Script ι β α) : List ℕ := (messages i j C).map Xfer.bytes

variable (i j : ι)

@[simp] theorem sizes_nil : sizes i j ([] : Script ι β α) = [] := rfl

@[simp] theorem sizes_append (C D : Script ι β α) :
    sizes i j (C ++ D) = sizes i j C ++ sizes i j D := by
  rw [sizes, messages, List.flatMap_append, List.map_append]
  rfl

@[simp] theorem sizes_act (r : ι) (f : Mem β α → Mem β α) (C : Script ι β α) :
    sizes i j (.act r f :: C) = sizes i j C := rfl

theorem sizes_flatMap {γ : Type*} (xs : List γ) (C : γ → Script ι β α) :
    sizes i j (xs.flatMap C) = xs.flatMap fun x => sizes i j (C x) := by
  rw [sizes, messages, List.flatMap_assoc, List.map_flatMap]
  rfl

@[simp] theorem sizes_acts (r : ι) (fs : List (Mem β α → Mem β α)) :
    sizes i j (fs.map (.act r) : Script ι β α) = [] := by
  induction fs with
  | nil => rfl
  | cons f fs ih => exact ih

@[simp] theorem sizes_locals (L : List ι) (f : ι → Mem β α → Mem β α) :
    sizes i j (locals L f) = [] := by
  induction L with
  | nil => rfl
  | cons r L ih => exact ih

theorem sizes_comm (i' j' : ι) (s d : Slice β) (w : ℕ) (C : Script ι β α) :
    sizes i j (.comm i' s j' d w :: C)
      = (if i = i' ∧ j = j' then [s.len * w] else []) ++ sizes i j C := by
  rw [sizes, messages, List.flatMap_cons, List.map_append, Event.messages]
  split <;> rfl

theorem sizes_hops {next : ι → ι} {L : List ι} (hL : L.Nodup) (s d : ι → Slice β) (w : ℕ) :
    sizes i j (hops next L s d w : Script ι β α)
      = if i ∈ L ∧ j = next i then [(s i).len * w] else [] := by
  rw [hops, List.map_eq_flatMap, sizes_flatMap]
  refine Eq.trans ?_ (flatMap_ite_eq hL i (fun q => j = next q) fun q => (s q).len * w)
  refine List.flatMap_congr fun q _ => ?_
  rw [sizes_comm, sizes_nil, List.append_nil]

/-- The process at position `q` of a chain sends once, if the chain goes on there. -/
theorem sizes_chain {e : ℕ → ι} {N : ℕ} (he : ∀ {p q}, p < N → q < N → e p = e q → p = q)
    {q K : ℕ} (hq : q < N) (hK : K ≤ N) (s d : ℕ → Slice β) (w : ℕ)
    (acts : ℕ → List (Mem β α → Mem β α)) :
    sizes (e q) j (chain e s d w acts K)
      = if q < K ∧ j = e (q + 1) then [(s q).len * w] else [] := by
  rw [chain, sizes_flatMap]
  have hstep : ∀ p ∈ List.range K, sizes (e q) j (hop e s d w acts p)
      = if q = p ∧ j = e (p + 1) then [(s p).len * w] else [] := by
    intro p hp
    have hiff : e q = e p ↔ q = p :=
      ⟨he hq ((List.mem_range.mp hp).trans_le hK), fun h => congrArg e h⟩
    rw [hop, sizes_comm, sizes_acts, List.append_nil]
    simp only [hiff]
  rw [List.flatMap_congr hstep, flatMap_ite_eq List.nodup_range]
  simp only [List.mem_range]

theorem sizes_inward {root : ι} {L : List ι} (hL : L.Nodup) (s d : ι → Slice β) (w : ℕ)
    (acts : ι → List (Mem β α → Mem β α)) :
    sizes i j (inward root L s d w acts)
      = if i ∈ L ∧ j = root then [(s i).len * w] else [] := by
  rw [inward, sizes_flatMap]
  refine Eq.trans ?_ (flatMap_ite_eq hL i (fun _ => j = root) fun q => (s q).len * w)
  refine List.flatMap_congr fun q _ => ?_
  rw [sizes_comm, sizes_acts, List.append_nil]

theorem sizes_outward {root : ι} {L : List ι} (hL : L.Nodup) (s d : ι → Slice β) (w : ℕ) :
    sizes i j (outward root L s d w : Script ι β α)
      = if j ∈ L ∧ i = root then [(s j).len * w] else [] := by
  rw [outward, List.map_eq_flatMap, sizes_flatMap]
  refine Eq.trans ?_ (flatMap_ite_eq hL j (fun _ => i = root) fun q => (s q).len * w)
  refine List.flatMap_congr fun q _ => ?_
  rw [sizes_comm, sizes_nil, List.append_nil]
  simp only [and_comm]

end Script

variable {α : Type*}

/-! ### The ring -/

namespace TopologyRing

/-- The sizes of the messages from rank `i` to rank `j`. -/
def sizes (n i j : ℕ) : Call α → List ℕ
  | .broadcast _ count dtype root =>
      if j = getNextRank n i ∧ j ≠ root then [count * getDataTypeSize dtype] else []
  | .gather _ _ count dtype root =>
      let position := (i + n - root) % n
      if j = getPrevRank n i ∧ i ≠ root then [(n - position) * count * getDataTypeSize dtype]
      else []
  | .scatter _ _ count dtype root =>
      let position := (i + n - root) % n
      if j = getNextRank n i then
        List.replicate (n - 1 - position) (count * getDataTypeSize dtype)
      else []
  | .reduce _ _ count dtype _ root =>
      if j = getPrevRank n i ∧ i ≠ root then [count * getDataTypeSize dtype] else []
  | .allGather _ _ count dtype =>
      if j = getNextRank n i then List.replicate (n - 1) (count * getDataTypeSize dtype) else []
  | .reduceScatter _ _ count dtype _ =>
      (if j = getPrevRank n i ∧ i ≠ 0 then [count * n * getDataTypeSize dtype] else []) ++
        if j = getNextRank n i then
          List.replicate (n - 1 - i) (count * getDataTypeSize dtype)
        else []
  | .allReduce _ _ count dtype _ =>
      if j = getNextRank n i then
        if n = 2 then [count * getDataTypeSize dtype]
        else
          (List.range (n - 1)).map (fun step =>
              actualCount n count (AllReduceReduceScatter.sendChunk n i step)
                * getDataTypeSize dtype) ++
            (List.range (n - 1)).map fun step =>
              actualCount n count (AllReduceAllGather.sendChunk n i step) * getDataTypeSize dtype
      else []
  | .allToAll _ _ count dtype =>
      if j = getNextRank n i then List.replicate (n - 1) (count * n * getDataTypeSize dtype)
      else []
  | .barrier => if j = getNextRank n i then [4, 4] else []

section Rooted

variable {n root i : ℕ} (hroot : root < n) (hi : i < n) (j count w : ℕ)
include hroot hi

theorem sizes_broadcastScript (buffer : ℕ → Buf) :
    Script.sizes i j (broadcastScript n count w root buffer : Script ℕ Buf α)
      = if j = getNextRank n i ∧ j ≠ root then [count * w] else [] := by
  obtain ⟨p, hp, rfl⟩ := exists_rankAt hroot hi
  rw [broadcastScript, Script.sizes_chain j (rankAt_inj hroot) hp (Nat.sub_le n 1)]
  refine if_congr ?_ rfl rfl
  rw [getNextRank_rankAt, and_comm]
  refine and_congr_right ?_
  rintro rfl
  rw [Ne, ← getNextRank_rankAt, getNextRank_rankAt_eq_root hroot hp]
  omega

/-- On the way to the root every other rank sends to the one before it. -/
theorem sizes_toRoot (s d : ℕ → Slice Buf) (acts : ℕ → List (RankMem α → RankMem α)) :
    Script.sizes i j (Script.chain (rankFrom n root) s d w acts (n - 1))
      = if j = getPrevRank n i ∧ i ≠ root then
          [(s (n - 1 - (i + n - root) % n)).len * w] else [] := by
  obtain ⟨p, hp, rfl⟩ := exists_rankAt hroot hi
  have hfrom : rankAt n root p = rankFrom n root (n - 1 - p) := by
    rw [rankFrom, show n - 1 - (n - 1 - p) = p by omega]
  rw [position_rankAt hroot hp]
  conv_lhs => rw [hfrom]
  rw [Script.sizes_chain j (fun hp hq => rankFrom_inj hroot hp hq) (by omega) (Nat.sub_le n 1)]
  refine if_congr ?_ rfl rfl
  rw [Ne, rankAt_eq_root hroot hp, and_comm]
  by_cases hzero : p = 0
  · exact iff_of_false (fun h => by omega) (fun h => h.2 hzero)
  · have hprev : getPrevRank n (rankAt n root p) = rankFrom n root (n - 1 - p + 1) := by
      rw [rankFrom, show n - 1 - (n - 1 - p + 1) = p - 1 by omega]
      conv_lhs => rw [show p = p - 1 + 1 by omega]
      exact getPrevRank_rankAt (by omega) root (p - 1)
    rw [hprev]
    exact and_congr_right fun _ => iff_of_true (by omega) hzero

theorem sizes_scatterScript (sendBuf recvBuf : ℕ → Buf) :
    Script.sizes i j (scatterScript n count w root sendBuf recvBuf : Script ℕ Buf α)
      = if j = getNextRank n i then List.replicate (n - 1 - (i + n - root) % n) (count * w)
        else [] := by
  obtain ⟨p, hp, rfl⟩ := exists_rankAt hroot hi
  rw [scatterScript, Script.sizes_act, Script.sizes_flatMap, position_rankAt hroot hp]
  have hstep : ∀ step ∈ List.range' 1 (n - 1), Script.sizes (rankAt n root p) j
      (scatterChain n count w root sendBuf recvBuf step : Script ℕ Buf α)
        = if p < step ∧ j = getNextRank n (rankAt n root p) then [count * w] else [] := by
    intro step hstep
    have hlt := (List.mem_range'_1.mp hstep).2
    rw [scatterChain, Script.sizes_chain j (rankAt_inj hroot) hp (by omega), getNextRank_rankAt]
    have hlen : (scatterSource n count root (sendBuf root) step p).len = count := by
      rw [scatterSource]
      split <;> rfl
    rw [hlen]
  rw [List.flatMap_congr hstep]
  by_cases hj : j = getNextRank n (rankAt n root p)
  · simp only [hj, and_true, if_true]
    exact flatMap_ite_lt (count * w) p (n - 1)
  · simp [hj]

end Rooted

section Symmetric

variable {n i : ℕ} (hi : i < n) (j count w : ℕ)
include hi

omit hi in
/-- A round in which every rank sends to the next one. -/
theorem sizes_rounds (hi : i < n) (L : List ℕ) (s d : ℕ → ℕ → Slice Buf) :
    L.flatMap (fun step => Script.sizes i j
        (Script.hops (getNextRank n) (hopOrder n) (s step) (d step) w : Script ℕ Buf α))
      = if j = getNextRank n i then L.map fun step => (s step i).len * w else [] := by
  have hround : ∀ step ∈ L, Script.sizes i j
      (Script.hops (getNextRank n) (hopOrder n) (s step) (d step) w : Script ℕ Buf α)
        = if j = getNextRank n i then [(s step i).len * w] else [] := by
    intro step _
    rw [Script.sizes_hops i j (nodup_hopOrder n)]
    simp [mem_hopOrder, hi]
  rw [List.flatMap_congr hround]
  by_cases hj : j = getNextRank n i
  · simp only [hj, if_true]
    exact (List.map_eq_flatMap).symm
  · simp [hj]

theorem sizes_allGatherScript (sendBuf recvBuf : ℕ → Buf) :
    Script.sizes i j (allGatherScript n count w sendBuf recvBuf : Script ℕ Buf α)
      = if j = getNextRank n i then List.replicate (n - 1) (count * w) else [] := by
  rw [allGatherScript, Script.sizes_append, Script.sizes_locals, List.nil_append,
    Script.sizes_flatMap]
  refine (sizes_rounds j w hi _ _ _).trans ?_
  simp

theorem sizes_allReduceScript (sendBuf recvBuf : ℕ → Buf) (red : Reducer α) :
    Script.sizes i j (allReduceScript n count w sendBuf recvBuf red)
      = if j = getNextRank n i then
          if n = 2 then [count * w]
          else
            (List.range (n - 1)).map (fun step =>
                actualCount n count (AllReduceReduceScatter.sendChunk n i step) * w) ++
              (List.range (n - 1)).map fun step =>
                actualCount n count (AllReduceAllGather.sendChunk n i step) * w
        else [] := by
  rw [allReduceScript]
  by_cases htwo : n = 2
  · subst htwo
    rw [if_pos rfl, if_pos rfl, twoRanksScript, Script.sizes_append, Script.sizes_append,
      Script.sizes_locals, Script.sizes_locals, Script.sizes_hops i j List.nodup_range]
    simp [hi]
  · rw [if_neg htwo, if_neg htwo, chunksScript, Script.sizes_append, Script.sizes_append,
      Script.sizes_locals, List.nil_append, Script.sizes_flatMap, Script.sizes_flatMap]
    have hreduce : ∀ step ∈ List.range (n - 1), Script.sizes i j
        (reduceScatterStep n count w recvBuf red step)
          = Script.sizes i j (Script.hops (getNextRank n) (hopOrder n)
              (fun r => chunkSlice n (recvBuf r) count (AllReduceReduceScatter.sendChunk n r step))
              (fun r => ⟨.tempBuffer, 0,
                actualCount n count (AllReduceReduceScatter.recvChunk n r step)⟩) w
            : Script ℕ Buf α) := by
      intro step _
      rw [reduceScatterStep, Script.sizes_append, Script.sizes_locals, List.append_nil]
    rw [List.flatMap_congr hreduce, sizes_rounds j w hi, List.flatMap_congr fun step _ => rfl]
    have hgather := sizes_rounds (α := α) j w hi (List.range (n - 1))
      (fun step r => chunkSlice n (recvBuf r) count (AllReduceAllGather.sendChunk n r step))
      (fun step r => chunkSlice n (recvBuf r) count (AllReduceAllGather.recvChunk n r step))
    refine (congrArg (_ ++ ·) hgather).trans ?_
    by_cases hj : j = getNextRank n i
    · simp [hj, chunkSlice]
    · simp [hj]

theorem sizes_allToAllScript (sendBuf recvBuf : ℕ → Buf) :
    Script.sizes i j (allToAllScript n count w sendBuf recvBuf : Script ℕ Buf α)
      = if j = getNextRank n i then List.replicate (n - 1) (count * n * w) else [] := by
  rw [allToAllScript, Script.sizes_append, Script.sizes_locals, List.nil_append,
    Script.sizes_flatMap]
  have hstep : ∀ src ∈ List.range n, Script.sizes i j
      (allToAllStep n count w sendBuf recvBuf src : Script ℕ Buf α)
        = if j = getNextRank n i ∧ j ≠ src then [count * n * w] else [] := by
    intro src hsrc
    rw [allToAllStep, Script.sizes_append, Script.sizes_append, Script.sizes_locals,
      Script.sizes_locals, List.append_nil, List.nil_append,
      sizes_broadcastScript (List.mem_range.mp hsrc) hi]
  rw [List.flatMap_congr hstep]
  by_cases hj : j = getNextRank n i
  · simp only [hj, true_and, if_true]
    exact flatMap_ite_ne _ (getNextRank_lt (by omega))
  · simp [hj]

theorem sizes_barrierScript :
    Script.sizes i j (barrierScript n : Script ℕ Buf α)
      = if j = getNextRank n i then [4, 4] else [] := by
  have hround : Script.sizes i j (barrierRoundScript n : Script ℕ Buf α)
      = if j = getNextRank n i then [4] else [] := by
    rw [barrierRoundScript, Script.sizes_hops i j List.nodup_range]
    simp [hi]
  rw [barrierScript, Script.sizes_append, hround]
  split <;> rfl

end Symmetric

/-- **What a call puts on the links of the ring.** -/
theorem sizes_callScript {n i : ℕ} (hi : i < n) (j : ℕ) {c : Call α} (hc : c.Valid n) :
    Script.sizes i j (callScript n c) = sizes n i j c := by
  cases c with
  | broadcast buffer count dtype root => exact sizes_broadcastScript hc hi j _ _ _
  | gather sendBuf recvBuf count dtype root =>
      rw [callScript, gatherScript, Script.sizes_append, Script.sizes_locals, List.nil_append,
        sizes_toRoot hc hi j]
      have hpos : (i + n - root) % n < n := Nat.mod_lt _ (by omega)
      show (if _ then [(n - 1 - (i + n - root) % n + 1) * count * _] else []) = _
      rw [show n - 1 - (i + n - root) % n + 1 = n - (i + n - root) % n by omega]
      rfl
  | scatter sendBuf recvBuf count dtype root => exact sizes_scatterScript hc hi j _ _ _ _
  | reduce sendBuf recvBuf count dtype red root =>
      rw [callScript, reduceScript, Script.sizes_append, Script.sizes_locals]
      exact sizes_toRoot hc hi j _ _ _ _
  | allGather sendBuf recvBuf count dtype => exact sizes_allGatherScript hi j _ _ _ _
  | reduceScatter sendBuf recvBuf count dtype red =>
      have hroot : 0 < n := by omega
      have hpos : (i + n - 0) % n = i := by
        rw [Nat.sub_zero, Nat.add_mod_right, Nat.mod_eq_of_lt hi]
      rw [callScript, reduceScatterScript, Script.sizes_append, sizes_scatterScript hroot hi,
        reduceScript, Script.sizes_append, Script.sizes_locals, List.nil_append,
        sizes_toRoot hroot hi, hpos]
      rfl
  | allReduce sendBuf recvBuf count dtype red => exact sizes_allReduceScript hi j _ _ _ _ _
  | allToAll sendBuf recvBuf count dtype => exact sizes_allToAllScript hi j _ _ _ _
  | barrier => exact sizes_barrierScript hi j

/-! ### The chunks of `AllReduce` -/

/-- In `n` steps a rank goes through all chunks, from its own one backwards. -/
theorem perm_chunks (n c : ℕ) :
    ((List.range n).map fun step => (c + n - step) % n).Perm (List.range n) := by
  refine List.Subperm.perm_of_length_le ?_ (by simp)
  refine (List.nodup_range.map_on ?_).subperm ?_
  · intro a ha b hb hab
    rw [List.mem_range] at ha hb
    by_contra hne
    rcases Nat.lt_or_gt_of_ne hne with hlt | hlt
    · have hdvd := Nat.sub_mod_eq_zero_of_mod_eq hab
      rw [show c + n - a - (c + n - b) = b - a by omega, Nat.mod_eq_of_lt (by omega)] at hdvd
      omega
    · have hdvd := Nat.sub_mod_eq_zero_of_mod_eq hab.symm
      rw [show c + n - b - (c + n - a) = a - b by omega, Nat.mod_eq_of_lt (by omega)] at hdvd
      omega
  · intro chunk hchunk
    obtain ⟨step, hstep, rfl⟩ := List.mem_map.mp hchunk
    rw [List.mem_range] at hstep ⊢
    exact Nat.mod_lt _ (by omega)

theorem range_eq_concat {n : ℕ} (hn : 0 < n) : List.range n = List.range (n - 1) ++ [n - 1] := by
  obtain ⟨k, rfl⟩ := Nat.exists_eq_succ_of_ne_zero hn.ne'
  exact List.range_succ

/-- All steps but the last leave out one chunk. -/
theorem sum_chunks_add {n : ℕ} (hn : 0 < n) (f : ℕ → ℕ) (c : ℕ) :
    ((List.range (n - 1)).map fun step => f ((c + n - step) % n)).sum + f ((c + 1) % n)
      = ((List.range n).map f).sum := by
  have hlast : c + n - (n - 1) = c + 1 := by omega
  calc ((List.range (n - 1)).map fun step => f ((c + n - step) % n)).sum + f ((c + 1) % n)
      = ((List.range n).map fun step => f ((c + n - step) % n)).sum := by
        rw [range_eq_concat hn, List.map_append, List.sum_append, List.map_singleton,
          List.sum_singleton, hlast]
    _ = (((List.range n).map fun step => (c + n - step) % n).map f).sum := by
        rw [List.map_map]
        rfl
    _ = ((List.range n).map f).sum := ((perm_chunks n c).map f).sum_eq

/-- The chunks make up the buffer, if the last one starts inside it. -/
theorem sum_actualCount {n count : ℕ} (hn : 0 < n) (hinside : (n - 1) * chunkSize n count ≤ count) :
    ((List.range n).map (actualCount n count)).sum = count := by
  have hfull : ∀ c ∈ List.range (n - 1), actualCount n count c = chunkSize n count := by
    intro c hc
    have hle : (c + 1) * chunkSize n count ≤ (n - 1) * chunkSize n count :=
      Nat.mul_le_mul_right _ (List.mem_range.mp hc)
    rw [Nat.add_mul, Nat.one_mul] at hle
    rw [actualCount, sizeSub_of_le (by omega)]
    omega
  have hlast : actualCount n count (n - 1) = count - (n - 1) * chunkSize n count := by
    have hcover := count_le_mul_chunkSize hn count
    have hsplit : n * chunkSize n count = (n - 1) * chunkSize n count + chunkSize n count := by
      rw [Nat.sub_mul, Nat.one_mul, Nat.sub_add_cancel (Nat.le_mul_of_pos_left _ hn)]
    rw [actualCount, sizeSub_of_le hinside]
    omega
  rw [range_eq_concat hn, List.map_append, List.sum_append, List.map_congr_left hfull,
    List.map_const', List.length_range, List.sum_replicate_nat, List.map_singleton,
    List.sum_singleton, hlast]
  omega

/-- The sizes of the messages of a phase that begins with chunk `c`. -/
def phaseSizes (n count w c : ℕ) : List ℕ :=
  (List.range (n - 1)).map fun step => actualCount n count ((c + n - step) % n) * w

@[simp] theorem length_phaseSizes (n count w c : ℕ) : (phaseSizes n count w c).length = n - 1 := by
  simp [phaseSizes]

theorem le_of_mem_phaseSizes {n count w c x : ℕ} (hx : x ∈ phaseSizes n count w c) :
    x ≤ chunkSize n count * w := by
  obtain ⟨step, -, rfl⟩ := List.mem_map.mp hx
  exact Nat.mul_le_mul_right w (actualCount_le _ _ _)

theorem sum_phaseSizes {n count : ℕ} (hn : 0 < n) (hinside : (n - 1) * chunkSize n count ≤ count)
    (w c : ℕ) :
    (phaseSizes n count w c).sum + actualCount n count ((c + 1) % n) * w = count * w := by
  rw [phaseSizes, sum_chunks_add hn (fun chunk => actualCount n count chunk * w),
    List.sum_map_mul_right, sum_actualCount hn hinside]

end TopologyRing

/-! ### The full mesh -/

namespace TopologyFullMesh

/-- The sizes of the messages from rank `i` to rank `j`. -/
def sizes (n i j : ℕ) : Call α → List ℕ
  | .broadcast _ count dtype root =>
      if i = root ∧ j ≠ i then [count * getDataTypeSize dtype] else []
  | .gather _ _ count dtype root =>
      if j = root ∧ i ≠ j then [count * getDataTypeSize dtype] else []
  | .scatter _ _ count dtype root =>
      if i = root ∧ j ≠ i then [count * getDataTypeSize dtype] else []
  | .reduce _ _ count dtype _ root =>
      if j = root ∧ i ≠ j then [count * getDataTypeSize dtype] else []
  | .allGather _ _ count dtype => if i ≠ j then [count * getDataTypeSize dtype] else []
  | .reduceScatter _ _ count dtype _ =>
      (masks n).flatMap fun mask =>
        if j = i ^^^ mask then [count * n * getDataTypeSize dtype] else []
  | .allReduce _ _ count dtype _ =>
      (masks n).flatMap fun mask => if j = i ^^^ mask then [count * getDataTypeSize dtype] else []
  | .allToAll _ _ count dtype => if i ≠ j then [count * getDataTypeSize dtype] else []
  | .barrier => if i ≠ j ∧ (i = 0 ∨ j = 0) then [4] else []

section Sizes

variable {n i j : ℕ} (hi : i < n) (hj : j < n) (w : ℕ)
include hi hj

theorem sizes_exchanges (s d : ℕ → ℕ → Slice Buf) :
    Script.sizes i j (exchanges n w s d : Script ℕ Buf α)
      = if i ≠ j then [(s i j).len * w] else [] := by
  rw [Script.sizes, ← Script.filterMap_project, project_exchanges hi, List.filterMap_flatMap,
    List.map_flatMap]
  have hpeer : ∀ p ∈ peersOf n i, (List.filterMap (Local.toward j)
      (if i < p then [(.xfer ⟨.send, p, s i p, w⟩ : Local ℕ Buf α), .xfer ⟨.recv, p, d i p, w⟩]
        else [.xfer ⟨.recv, p, d i p, w⟩, .xfer ⟨.send, p, s i p, w⟩])).map Xfer.bytes
        = if j = p ∧ True then [(s i p).len * w] else [] := by
    intro p _
    by_cases hp : j = p
    · subst hp
      split <;> simp [Local.toward, Xfer.key, Xfer.bytes]
    · split <;> simp [Local.toward, Xfer.key, hp, Ne.symm hp]
  rw [List.flatMap_congr hpeer, flatMap_ite_eq (nodup_peersOf n i) j (fun _ => True)]
  exact if_congr (by rw [mem_peersOf, and_true, and_iff_right hj, ne_comm]) rfl rfl

theorem sizes_doublingStep (s d : ℕ → Slice Buf) (perform : ℕ → ℕ → RankMem α → RankMem α)
    (blocks mask : ℕ) :
    Script.sizes i j (doublingStep n w s d perform blocks mask)
      = if j = i ^^^ mask then [(s i).len * w] else [] := by
  have hlocals : Script.sizes i j
      ((List.range blocks).flatMap fun k => Script.locals (paired n mask) (perform k)) = [] := by
    rw [Script.sizes_flatMap]
    exact List.flatMap_eq_nil_iff.mpr fun k _ => Script.sizes_locals i j _ _
  rw [doublingStep, Script.sizes_append, hlocals, List.append_nil,
    Script.sizes_hops i j (nodup_paired n mask)]
  refine if_congr (and_iff_right_of_imp ?_) rfl rfl
  rintro rfl
  exact mem_paired.mpr ⟨hi, hj⟩

/-- **What a call puts on the links of the full mesh.** -/
theorem sizes_callScript {c : Call α} (hc : c.Valid n) :
    Script.sizes i j (callScript n c) = sizes n i j c := by
  have hpeers {root : ℕ} (hroot : root < n) {a b : ℕ} (ha : a < n) :
      a ∈ peersOf n root ∧ b = root ↔ b = root ∧ a ≠ b := by
    rw [mem_peersOf, and_iff_right ha, and_comm]
    refine and_congr_right ?_
    rintro rfl
    exact Iff.rfl
  cases c with
  | broadcast buffer count dtype root =>
      rw [callScript, broadcastScript, Script.sizes_outward i j (nodup_peersOf n root)]
      exact if_congr (hpeers hc hj) rfl rfl
  | gather sendBuf recvBuf count dtype root =>
      rw [callScript, gatherScript, Script.sizes_act,
        Script.sizes_inward i j (nodup_peersOf n root)]
      exact if_congr (hpeers hc hi) rfl rfl
  | scatter sendBuf recvBuf count dtype root =>
      rw [callScript, scatterScript, Script.sizes_act,
        Script.sizes_outward i j (nodup_peersOf n root)]
      exact if_congr (hpeers hc hj) rfl rfl
  | reduce sendBuf recvBuf count dtype red root =>
      rw [callScript, reduceScript, Script.sizes_act,
        Script.sizes_inward i j (nodup_peersOf n root)]
      exact if_congr (hpeers hc hi) rfl rfl
  | allGather sendBuf recvBuf count dtype =>
      rw [callScript, allGatherScript, Script.sizes_append, Script.sizes_locals, List.nil_append]
      exact sizes_exchanges hi hj _ _ _
  | reduceScatter sendBuf recvBuf count dtype red =>
      rw [callScript, reduceScatterScript, Script.sizes_append, Script.sizes_append,
        Script.sizes_locals, Script.sizes_locals, List.append_nil, List.nil_append,
        Script.sizes_flatMap]
      exact List.flatMap_congr fun mask _ => sizes_doublingStep hi hj _ _ _ _ _ _
  | allReduce sendBuf recvBuf count dtype red =>
      rw [callScript, allReduceScript, Script.sizes_append, Script.sizes_locals, List.nil_append,
        Script.sizes_flatMap]
      exact List.flatMap_congr fun mask _ => sizes_doublingStep hi hj _ _ _ _ _ _
  | allToAll sendBuf recvBuf count dtype =>
      rw [callScript, allToAllScript, Script.sizes_append, Script.sizes_locals, List.nil_append]
      exact sizes_exchanges hi hj _ _ _
  | barrier =>
      have hmem : ∀ a, a ∈ List.range' 1 (n - 1) ↔ 1 ≤ a ∧ a < n := fun a => by
        rw [List.mem_range'_1]
        omega
      rw [callScript, barrierScript, Script.sizes_append, Script.sizes_inward i j List.nodup_range',
        Script.sizes_outward i j List.nodup_range', sizes]
      simp only [hmem]
      by_cases hi0 : i = 0
      · by_cases hj0 : j = 0
        · simp [hi0, hj0]
        · have hj1 : 1 ≤ j := by omega
          simp [hi0, hj0, hj1, hj, Ne.symm hj0]
      · by_cases hj0 : j = 0
        · have hi1 : 1 ≤ i := by omega
          simp [hi0, hj0, hi1, hi]
        · simp [hi0, hj0]

end Sizes

/-- In recursive doubling a rank sends once to each peer whose number differs in one bit. -/
theorem flatMap_masks (n i j x : ℕ) :
    ((masks n).flatMap fun mask => if j = i ^^^ mask then [x] else [])
      = if ∃ b < Nat.clog 2 n, j = i ^^^ 2 ^ b then [x] else [] := by
  have hnodup : (masks n).Nodup := by
    rw [masks_eq]
    exact List.nodup_range.map (Nat.pow_right_injective le_rfl)
  have hiff : ∀ mask, i ^^^ j = mask ↔ j = i ^^^ mask := by
    refine fun mask => ⟨?_, ?_⟩
    · rintro rfl
      rw [← Nat.xor_assoc, Nat.xor_self, Nat.zero_xor]
    · rintro rfl
      rw [← Nat.xor_assoc, Nat.xor_self, Nat.zero_xor]
  have h := flatMap_ite_eq hnodup (i ^^^ j) (fun _ => True) fun _ => x
  simp only [and_true, hiff] at h
  rw [h, masks_eq]
  refine if_congr ?_ rfl rfl
  rw [List.mem_map]
  refine exists_congr fun b => ?_
  rw [List.mem_range, eq_comm, hiff]

/-- With a power of two as the world size there is such a peer for each bit. -/
theorem card_peers {k i : ℕ} (hi : i < 2 ^ k) :
    ((Finset.range (2 ^ k)).filter fun j => ∃ b < k, j = i ^^^ 2 ^ b).card = k := by
  have himage : ((Finset.range (2 ^ k)).filter fun j => ∃ b < k, j = i ^^^ 2 ^ b)
      = (Finset.range k).image fun b => i ^^^ 2 ^ b := by
    ext j
    simp only [Finset.mem_filter, Finset.mem_range, Finset.mem_image]
    constructor
    · rintro ⟨-, b, hb, rfl⟩
      exact ⟨b, hb, rfl⟩
    · rintro ⟨b, hb, rfl⟩
      have hbit : 2 ^ b < 2 ^ k := Nat.pow_lt_pow_right (by omega) hb
      exact ⟨Nat.xor_lt_two_pow hi hbit, b, hb, rfl⟩
  rw [himage, Finset.card_image_of_injective, Finset.card_range]
  intro a b (hab : i ^^^ 2 ^ a = i ^^^ 2 ^ b)
  have hpow : 2 ^ a = 2 ^ b := by
    rw [← xor_mask_cancel (2 ^ a) i, Nat.xor_comm (2 ^ a), hab, Nat.xor_comm i, xor_mask_cancel]
  exact Nat.pow_right_injective le_rfl hpow

end TopologyFullMesh

/-! ### Sessions -/

/-- The sizes of the messages from rank `i` to rank `j` in an operation. -/
def Operation.sizes (topology : TopologyType) (n i j : ℕ) : Operation α → List ℕ
  | collective c =>
      match topology with
      | .ring => TopologyRing.sizes n i j c
      | .fullMesh => TopologyFullMesh.sizes n i j c
  | message source dest _ _ count dtype =>
      if i = source ∧ j = dest ∧ dest ∈ topology.getNeighbors n source then
        [count * getDataTypeSize dtype]
      else []

theorem Operation.sizes_script {topology : TopologyType} {n i j : ℕ} {o : Operation α}
    (ho : o.Valid n) (hi : i < n) (hj : j < n) :
    Script.sizes i j (o.script topology n) = o.sizes topology n i j := by
  cases o with
  | collective c =>
      cases topology with
      | ring => exact TopologyRing.sizes_callScript hi j ho
      | fullMesh => exact TopologyFullMesh.sizes_callScript hi hj ho
  | message source dest sendBuf recvBuf count dtype =>
      rw [script, sizes]
      by_cases hlink : dest ∈ topology.getNeighbors n source
      · rw [if_pos hlink, Script.sizes_comm, Script.sizes_nil, List.append_nil]
        exact if_congr (by rw [and_iff_left hlink]) rfl rfl
      · have hne : ¬ (i = source ∧ j = dest ∧ dest ∈ topology.getNeighbors n source) := fun h =>
          hlink h.2.2
        rw [if_neg hlink, if_neg hne, Script.sizes_nil]

theorem Operation.valid_singleton {n : ℕ} {c : Call α} (hc : c.Valid n) :
    ∀ o ∈ [collective c], o.Valid n :=
  List.forall_mem_singleton.mpr hc

theorem Operation.sizes_operations {topology : TopologyType} {n : ℕ} {ops : List (Operation α)}
    (hops : ∀ o ∈ ops, o.Valid n) {i j : ℕ} (hi : i < n) (hj : j < n) :
    Script.sizes i j (ops.flatMap (Operation.script topology n))
      = ops.flatMap (Operation.sizes topology n i j) := by
  rw [Script.sizes_flatMap]
  exact List.flatMap_congr fun o ho => Operation.sizes_script (hops o ho) hi hj

/-- What a rank that has returned has sent. -/
theorem map_bytes_of_finished {topology : TopologyType} {n : ℕ} (hn : 2 ≤ n)
    {ops : List (Operation α)} (hops : ∀ o ∈ ops, o.Valid n) {m : ℕ → RankMem α}
    {i j : ℕ} (hi : i < n) (hj : j < n) {l : List (Xfer ℕ Buf)} {s : Fifo ℕ Buf α}
    (h : Fifo.Sends i j (Fifo.init (topology.sessionTeam n ops) m) l s)
    (hdone : (s.node i).Finished) :
    l.map Xfer.bytes = ops.flatMap (Operation.sizes topology n i j) := by
  rw [h.eq_messages (topology.schedule_operations hn hops) hdone]
  exact Operation.sizes_operations hops hi hj

/-- **What a session puts on a link**, in any order of its steps: the messages of its
operations, one after the other, and all of them when the sender has returned. -/
theorem session_traffic {topology : TopologyType} {n : ℕ} (hn : 2 ≤ n)
    {ops : List (Operation α)} (hops : ∀ o ∈ ops, o.Valid n) {m : ℕ → RankMem α}
    {i j : ℕ} (hi : i < n) (hj : j < n) {l : List (Xfer ℕ Buf)} {s : Fifo ℕ Buf α}
    (h : Fifo.Sends i j (Fifo.init (topology.sessionTeam n ops) m) l s) :
    l.map Xfer.bytes <+: ops.flatMap (Operation.sizes topology n i j) ∧
      ((s.node i).Finished →
        l.map Xfer.bytes = ops.flatMap (Operation.sizes topology n i j)) := by
  refine ⟨?_, map_bytes_of_finished hn hops hi hj h⟩
  rw [← Operation.sizes_operations hops hi hj, Script.sizes,
    ← h.append_toSend (topology.schedule_operations hn hops)]
  exact (List.prefix_append l _).map Xfer.bytes

theorem exists_completed_sends (topology : TopologyType) {n : ℕ} (hn : 2 ≤ n)
    {ops : List (Operation α)} (hops : ∀ o ∈ ops, o.Valid n) (m : ℕ → RankMem α)
    (i : ℕ) :
    ∃ (s : Fifo ℕ Buf α) (l : ℕ → List (Xfer ℕ Buf)), (∀ r < n, (s.node r).Finished) ∧
      ∀ j, Fifo.Sends i j (Fifo.init (topology.sessionTeam n ops) m) (l j) s := by
  obtain ⟨s, hs, hdone⟩ := TopologyType.exists_completed_session hn hops m
  choose l hl using fun j => Fifo.exists_sends i j hs
  exact ⟨s, l, hdone, hl⟩

/-- Rank 0 of three sends four chunks of one number, and then all three numbers. -/
theorem session_traffic_three : ∃ (s : Fifo ℕ Buf (BitVec 32)) (l : List (Xfer ℕ Buf)),
    Fifo.Sends 0 1 (Fifo.init (TopologyType.ring.sessionTeam 3 TopologyType.threeRanks)
      fun r _ _ => BitVec.ofNat 32 r) l s ∧ l.map Xfer.bytes = [4, 4, 4, 4, 12] := by
  obtain ⟨s, l, hdone, hl⟩ := exists_completed_sends .ring (by decide)
    TopologyType.valid_threeRanks (fun r _ _ => BitVec.ofNat 32 r) 0
  have htraffic := (session_traffic (by decide) TopologyType.valid_threeRanks (by decide)
    (by decide) (hl 1)).2 (hdone 0 (by decide))
  exact ⟨s, l 1, hl 1, htraffic.trans (by decide)⟩

section AllReduce

variable {n count : ℕ} {sendBuf recvBuf : ℕ → ℕ} {dtype : DataType} {red : Reducer α}
  {m : ℕ → RankMem α} {i : ℕ} {s : Fifo ℕ Buf α}

/-- **`AllReduce` on the ring uses the links evenly**: a rank sends only to the next one,
`2 (n - 1)` messages of at most a chunk, and, if the chunks stay inside the buffer, together
twice the buffer less the two chunks it never has to pass on. -/
theorem ring_allReduce_traffic (hn : 3 ≤ n) (hi : i < n)
    {j : ℕ} (hj : j < n) {l : List (Xfer ℕ Buf)}
    (h : Fifo.Sends i j (Fifo.init (TopologyType.ring.sessionTeam n
      [.collective (.allReduce sendBuf recvBuf count dtype red)]) m) l s)
    (hdone : (s.node i).Finished) :
    if j = TopologyRing.getNextRank n i then
      l.length = 2 * (n - 1) ∧
        (∀ x ∈ l, x.bytes ≤ TopologyRing.chunkSize n count * getDataTypeSize dtype) ∧
        ((n - 1) * ((count + n - 1) / n) ≤ count →
          (l.map Xfer.bytes).sum + (TopologyRing.actualCount n count ((i + 1) % n)
              + TopologyRing.actualCount n count ((i + 2) % n)) * getDataTypeSize dtype
            = 2 * (count * getDataTypeSize dtype))
    else l = [] := by
  have hcall : (Call.allReduce sendBuf recvBuf count dtype red).Valid n := trivial
  have htraffic :=
    map_bytes_of_finished (by omega) (Operation.valid_singleton hcall) hi hj h hdone
  rw [List.flatMap_singleton, Operation.sizes, TopologyRing.sizes] at htraffic
  by_cases hnext : j = TopologyRing.getNextRank n i
  · have htwo : n ≠ 2 := by omega
    have hall : l.map Xfer.bytes
        = TopologyRing.phaseSizes n count (getDataTypeSize dtype) i
          ++ TopologyRing.phaseSizes n count (getDataTypeSize dtype) (i + 1) := by
      rw [htraffic, if_pos hnext, if_neg htwo]
      rfl
    rw [if_pos hnext]
    refine ⟨?_, fun x hx => ?_, fun hinside => ?_⟩
    · rw [← List.length_map Xfer.bytes, hall, List.length_append]
      simp [Nat.two_mul]
    · have hmem : x.bytes ∈ l.map Xfer.bytes := List.mem_map_of_mem hx
      rw [hall, List.mem_append] at hmem
      exact hmem.elim TopologyRing.le_of_mem_phaseSizes TopologyRing.le_of_mem_phaseSizes
    · have hpos : 0 < n := by omega
      have hreduce := TopologyRing.sum_phaseSizes hpos hinside (getDataTypeSize dtype) i
      have hgather := TopologyRing.sum_phaseSizes hpos hinside (getDataTypeSize dtype) (i + 1)
      rw [show i + 1 + 1 = i + 2 from rfl] at hgather
      rw [hall, List.sum_append, Nat.add_mul]
      omega
  · rw [if_neg hnext] at htraffic ⊢
    exact List.map_eq_nil_iff.mp htraffic

/-- Of five averages rank 1 of three sends four, and then three. -/
theorem ring_allReduce_traffic_three : ∃ (s : Fifo ℕ Buf (BitVec 32)) (l : List (Xfer ℕ Buf)),
    (s.node 1).Finished ∧ l.length = 4 ∧ (∀ x ∈ l, x.bytes ≤ 8) ∧
      (l.map Xfer.bytes).sum + 12 = 40 := by
  have hcall : (Call.allReduce (fun _ => 0) (fun _ => 1) 5 .int32
      (.performReduce (w := 32) .avg 3)).Valid 3 := trivial
  obtain ⟨s, l, hdone, hl⟩ := exists_completed_sends .ring (by decide)
    (Operation.valid_singleton hcall) (fun r _ _ => BitVec.ofNat 32 r) 1
  have hfinished := hdone 1 (by decide)
  obtain ⟨hlength, hbytes, hsum⟩ :=
    ring_allReduce_traffic (by decide) (by decide) (by decide) (hl 2) hfinished
  exact ⟨s, l 2, hfinished, hlength, hbytes, hsum (by decide)⟩

/-- **`AllReduce` on the full mesh takes few, large messages**: of `2 ^ k` ranks each sends
the whole buffer `k` times, once to each rank whose number differs from its own in one bit. -/
theorem fullMesh_allReduce_traffic {k : ℕ} (hk : 1 ≤ k)
    (hi : i < 2 ^ k) {l : ℕ → List (Xfer ℕ Buf)}
    (h : ∀ j < 2 ^ k, Fifo.Sends i j (Fifo.init (TopologyType.fullMesh.sessionTeam (2 ^ k)
      [.collective (.allReduce sendBuf recvBuf count dtype red)]) m) (l j) s)
    (hdone : (s.node i).Finished) :
    (∀ j < 2 ^ k, (l j).map Xfer.bytes
        = if ∃ b < k, j = i ^^^ 2 ^ b then [count * getDataTypeSize dtype] else []) ∧
      ∑ j ∈ Finset.range (2 ^ k), (l j).length = k := by
  have hn : 2 ≤ 2 ^ k := Nat.le_self_pow (by omega) 2
  have hall : ∀ j < 2 ^ k, (l j).map Xfer.bytes
      = if ∃ b < k, j = i ^^^ 2 ^ b then [count * getDataTypeSize dtype] else [] := by
    intro j hj
    have hcall : (Call.allReduce sendBuf recvBuf count dtype red).Valid (2 ^ k) := trivial
    have htraffic :=
      map_bytes_of_finished hn (Operation.valid_singleton hcall) hi hj (h j hj) hdone
    rw [List.flatMap_singleton, Operation.sizes, TopologyFullMesh.sizes,
      TopologyFullMesh.flatMap_masks, Nat.clog_pow 2 k (by omega)] at htraffic
    exact htraffic
  refine ⟨hall, ?_⟩
  have hlength : ∀ j ∈ Finset.range (2 ^ k), (l j).length
      = if ∃ b < k, j = i ^^^ 2 ^ b then 1 else 0 := by
    intro j hj
    rw [← List.length_map Xfer.bytes, hall j (Finset.mem_range.mp hj)]
    split <;> rfl
  rw [Finset.sum_congr rfl hlength, ← Finset.card_filter, TopologyFullMesh.card_peers hi]

/-- Rank 1 of four sends five numbers to rank 0 and to rank 3. -/
theorem fullMesh_allReduce_traffic_four : ∃ (s : Fifo ℕ Buf (BitVec 32))
    (l : ℕ → List (Xfer ℕ Buf)), (s.node 1).Finished ∧ (l 0).map Xfer.bytes = [20] ∧
      (l 2).map Xfer.bytes = [] ∧ (l 3).map Xfer.bytes = [20] := by
  have hcall : (Call.allReduce (fun _ => 0) (fun _ => 1) 5 .int32
      (.performReduce (w := 32) .avg 4)).Valid (2 ^ 2) := trivial
  obtain ⟨s, l, hdone, hl⟩ := exists_completed_sends .fullMesh (by decide)
    (Operation.valid_singleton hcall) (fun r _ _ => BitVec.ofNat 32 r) 1
  obtain ⟨hall, -⟩ := fullMesh_allReduce_traffic (by decide) (by decide)
    (fun j _ => hl j) (hdone 1 (by decide))
  exact ⟨s, l, hdone 1 (by decide), (hall 0 (by decide)).trans (by decide),
    (hall 2 (by decide)).trans (by decide), (hall 3 (by decide)).trans (by decide)⟩

end AllReduce

end MiniCcl
