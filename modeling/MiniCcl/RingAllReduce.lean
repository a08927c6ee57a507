/-
MiniCcl/RingAllReduce.lean

What `AllReduce` on the ring computes, and where it reads and writes.

Each element belongs to one chunk `c`.  In the coordinates of that chunk (the
rank `rankAt n c k` is the one at position `k`) the first phase is a chain: after
`S` rounds the positions up to `S` hold the chain fold of the inputs up to
theirs, and the others still hold their own input.  The second phase copies the
value of the last position to the positions 0, 1, 2, ….  So every rank ends with
the fold of all inputs in one and the same order (`exec_chunksScript`), and
agreement of the ranks needs nothing of the combine function.  For two ranks it
needs commutativity, because there each rank combines by itself.

The chunks themselves may leave the buffer.  `chunk_size` is rounded up, so the
last chunks can start after the end, and there `count - chunk * chunk_size`
wraps.
-/
import MiniCcl.Reduction
import MiniCcl.RingSchedule

namespace MiniCcl.TopologyRing

variable {α : Type*} {n count : ℕ}

/-! ### Elements and their chunks -/

/-- Element `i` belongs to the slice of chunk `c`. -/
def InChunk (n count c i : ℕ) : Prop :=
  c * chunkSize n count ≤ i ∧ i < c * chunkSize n count + actualCount n count c

theorem inChunk_iff_has {c i : ℕ} (recvBuf : Buf) :
    InChunk n count c i ↔ (chunkSlice n recvBuf count c).Has recvBuf i :=
  ⟨fun h => ⟨rfl, h⟩, fun h => h.2⟩

theorem InChunk.unique {c c' i : ℕ} (h : InChunk n count c i) (h' : InChunk n count c' i) :
    c = c' := by
  by_contra hne
  exact (chunkSlice_disjoint hne n .dummy count).not_has ((inChunk_iff_has _).mp h)
    ((inChunk_iff_has _).mp h')

/-- The chunks are large enough to cover the buffer. -/
theorem count_le_mul_chunkSize (hn : 0 < n) (count : ℕ) : count ≤ n * chunkSize n count := by
  have hlt := Nat.lt_mul_div_succ (count + n - 1) hn
  rw [Nat.mul_add, Nat.mul_one] at hlt
  show count ≤ n * ((count + n - 1) / n)
  omega

theorem sizeSub_of_le {a b : ℕ} (h : b ≤ a) : sizeSub a b = a - b := if_pos h

/-- Every element of the buffer is in the chunk of some rank. -/
theorem exists_inChunk (hn : 0 < n) {i : ℕ} (hi : i < count) :
    ∃ c < n, InChunk n count c i := by
  have hcover := count_le_mul_chunkSize hn count
  have hpos : 0 < chunkSize n count := by
    apply Nat.pos_of_ne_zero
    intro hzero
    rw [hzero] at hcover
    omega
  have hle : i / chunkSize n count * chunkSize n count ≤ i := Nat.div_mul_le_self _ _
  have hlt : i < (i / chunkSize n count + 1) * chunkSize n count := by
    rw [Nat.mul_comm]
    exact Nat.lt_mul_div_succ i hpos
  refine ⟨i / chunkSize n count, ?_, hle, ?_⟩
  · rw [Nat.div_lt_iff_lt_mul hpos]
    omega
  · rw [actualCount, sizeSub_of_le (by omega)]
    rw [Nat.add_mul, Nat.one_mul] at hlt
    omega

/-! ### The bounds of the buffer -/

/-- The cells that a call may access: in `recv_buf` the first `count` elements, and
whatever else there is. -/
def CallerCells (recvBuf count : ℕ) (b : Buf) (i : ℕ) : Prop := b = .user recvBuf → i < count

/-- The two phases of `AllReduce` stay inside the buffers of all ranks. -/
def PhasesInside (n : ℕ) (recvBuf : ℕ → ℕ) (count : ℕ) (dtype : DataType) (red : Reducer α) :
    Prop :=
  ∀ rank < n,
    (allReduceReduceScatter n rank (.user (recvBuf rank)) count dtype red (getPrevRank n rank)
        (getNextRank n rank)).StaysIn (CallerCells (recvBuf rank) count) ∧
      (allReduceAllGather n rank (.user (recvBuf rank)) count dtype (getPrevRank n rank)
        (getNextRank n rank) : RankProg α).StaysIn (CallerCells (recvBuf rank) count)

theorem mul_chunkSize_le (n count : ℕ) : n * chunkSize n count ≤ count + n - 1 :=
  Nat.mul_div_le _ _

/-- A chunk that starts inside the buffer ends inside it. -/
theorem lt_count_of_inChunk {c i : ℕ} (hc : c * chunkSize n count ≤ count)
    (hi : InChunk n count c i) : i < count := by
  obtain ⟨-, hi⟩ := hi
  rw [actualCount, sizeSub_of_le hc] at hi
  omega

/-- A chunk that starts after the end is not empty: the subtraction wraps. -/
theorem inChunk_of_count_lt {c : ℕ} (hc : count < c * chunkSize n count)
    (hsize : c * chunkSize n count < 2 ^ 64) : InChunk n count c (c * chunkSize n count) := by
  have hpos : 0 < chunkSize n count := by
    apply Nat.pos_of_ne_zero
    intro hzero
    rw [hzero] at hc
    omega
  refine ⟨le_rfl, Nat.lt_add_of_pos_right (lt_min hpos ?_)⟩
  rw [sizeSub, if_neg (Nat.not_le_of_gt hc)]
  omega

theorem four_le_getDataTypeSize (dtype : DataType) : 4 ≤ getDataTypeSize dtype := by
  cases dtype <;> decide

/-- A `Send` and a `Recv` of slices inside the buffer. -/
theorem staysIn_sendThread {S : Buf → ℕ → Prop} {next prev typeSize : ℕ} {s d : Slice Buf} :
    (sendThread next s prev d typeSize : RankProg α).StaysIn S
      ↔ (∀ b i, s.Has b i → S b i) ∧ ∀ b i, d.Has b i → S b i := by
  constructor
  · rintro ⟨hops, -⟩
    exact ⟨hops ⟨.send, next, s, typeSize⟩ List.mem_cons_self,
      hops ⟨.recv, prev, d, typeSize⟩ (List.mem_cons_of_mem _ List.mem_cons_self)⟩
  · rintro ⟨hs, hd⟩
    refine ⟨?_, fun _ => trivial⟩
    exact List.forall_mem_cons.mpr ⟨hs, List.forall_mem_singleton.mpr hd⟩

section Phases

variable {rank recvBuf prev next : ℕ} {dtype : DataType} {red : Reducer α}

/-- What the first step of the first phase sends. -/
theorem lt_count_of_staysIn (hn : 2 ≤ n)
    (h : (allReduceReduceScatter n rank (.user recvBuf) count dtype red prev next).StaysIn
      (CallerCells recvBuf count)) {i : ℕ}
    (hi : InChunk n count (AllReduceReduceScatter.sendChunk n rank 0) i) : i < count := by
  obtain ⟨k, hk⟩ : ∃ k, n - 1 = k + 1 := ⟨n - 2, by omega⟩
  rw [allReduceReduceScatter, hk, List.range_succ_eq_map] at h
  have hfirst := Prog.StaysIn.of_bind (Prog.StaysIn.of_bind h)
  exact (staysIn_sendThread.mp hfirst).1 _ i ((inChunk_iff_has _).mp hi) rfl

/-- A chunk inside the buffer. -/
theorem callerCells_of_has {c : ℕ} (hc : c * chunkSize n count ≤ count) (b : Buf) (i : ℕ)
    (h : (chunkSlice n (.user recvBuf) count c).Has b i) : CallerCells recvBuf count b i :=
  fun _ => lt_count_of_inChunk hc ⟨h.2.1, h.2.2⟩

variable (hchunks : ∀ c < n, c * chunkSize n count ≤ count) (hn : 0 < n)
include hchunks hn

theorem staysIn_allReduceReduceScatter :
    (allReduceReduceScatter n rank (.user recvBuf) count dtype red prev next).StaysIn
      (CallerCells recvBuf count) := by
  refine Prog.staysIn_forEach fun step _ => Prog.StaysIn.andThen ?_ (Prog.StaysIn.doAct ?_)
  · refine staysIn_sendThread.mpr ⟨callerCells_of_has (hchunks _ (Nat.mod_lt _ hn)), ?_⟩
    rintro b i ⟨rfl, -⟩
    exact Buf.noConfusion
  · -- the target of the reduction is the slice of the chunk
    have htarget : ∀ b i, (chunkSlice n (.user recvBuf) count
        (AllReduceReduceScatter.recvChunk n rank step)).Has b i → CallerCells recvBuf count b i :=
      callerCells_of_has (hchunks _ (Nat.mod_lt _ hn))
    refine red.staysIn_perform Buf.noConfusion (fun k _ => Buf.noConfusion) fun k hk => ?_
    exact htarget _ _ ⟨rfl, Nat.le_add_right _ _, Nat.add_lt_add_left hk _⟩

theorem staysIn_allReduceAllGather :
    (allReduceAllGather n rank (.user recvBuf) count dtype prev next : RankProg α).StaysIn
      (CallerCells recvBuf count) := by
  refine Prog.staysIn_forEach fun step _ => staysIn_sendThread.mpr ⟨?_, ?_⟩
  · exact callerCells_of_has (hchunks _ (Nat.mod_lt _ hn))
  · exact callerCells_of_has (hchunks _ (Nat.mod_lt _ hn))

end Phases

/-- **When `AllReduce` stays inside the buffer**: exactly if the last chunk does
not start after the end. -/
theorem ring_allReduce_inside_iff (hn : 3 ≤ n) (hint : n < 2 ^ 31) {dtype : DataType}
    (hsize : count * getDataTypeSize dtype < 2 ^ 64) (recvBuf : ℕ → ℕ) (red : Reducer α) :
    PhasesInside n recvBuf count dtype red ↔ (n - 1) * ((count + n - 1) / n) ≤ count := by
  show _ ↔ (n - 1) * chunkSize n count ≤ count
  constructor
  · intro h
    by_contra hout
    have hbound := Nat.mul_le_mul_left count (four_le_getDataTypeSize dtype)
    have hlast : (n - 1) * chunkSize n count ≤ n * chunkSize n count :=
      Nat.mul_le_mul_right _ (Nat.sub_le n 1)
    have hle := mul_chunkSize_le n count
    -- the last rank starts with the last chunk
    have hchunk : AllReduceReduceScatter.sendChunk n (n - 1) 0 = n - 1 := by
      rw [AllReduceReduceScatter.sendChunk, Nat.sub_zero, Nat.add_mod_right,
        Nat.mod_eq_of_lt (by omega)]
    have hin : InChunk n count (AllReduceReduceScatter.sendChunk n (n - 1) 0)
        ((n - 1) * chunkSize n count) := by
      rw [hchunk]
      exact inChunk_of_count_lt (Nat.lt_of_not_le hout) (by omega)
    exact hout (lt_count_of_staysIn (by omega) (h (n - 1) (by omega)).1 hin).le
  · intro h rank _
    have hchunks : ∀ c < n, c * chunkSize n count ≤ count := by
      intro c hc
      exact (Nat.mul_le_mul_right _ (by omega)).trans h
    exact ⟨staysIn_allReduceReduceScatter hchunks (by omega),
      staysIn_allReduceAllGather hchunks (by omega)⟩

/-- Eight elements on four ranks are four chunks of two. -/
theorem ring_allReduce_inside_iff_eight :
    PhasesInside 4 (fun _ => 0) 8 .int32 (Reducer.performReduce (w := 32) .sum 4) := by
  have hsize : 8 * getDataTypeSize .int32 < 2 ^ 64 := by decide
  exact (ring_allReduce_inside_iff (by decide) (by decide) hsize _ _).mpr (by decide)

/-- Five elements on four ranks: the chunks are of two elements, and the last one
starts at element 6. -/
theorem ring_allReduce_outside_five :
    ¬ PhasesInside 4 (fun _ => 0) 5 .int32 (Reducer.performReduce (w := 32) .sum 4) := by
  intro h
  have hin : InChunk 4 5 (AllReduceReduceScatter.sendChunk 4 3 0) 6 := ⟨by decide, by decide⟩
  exact absurd (lt_count_of_staysIn (by decide) (h 3 (by decide)).1 hin) (by decide)

/-! ### One round -/

theorem nodup_map_hopOrder (n : ℕ) : ((hopOrder n).map (getNextRank n)).Nodup := by
  apply List.Nodup.map_on _ (nodup_hopOrder n)
  intro p hp q hq h
  rw [eq_getPrevRank (mem_hopOrder.mp hp) h, ← eq_getPrevRank (mem_hopOrder.mp hq) rfl]

/-- After a round of hops every rank holds what the previous one sent. -/
theorem exec_hopOrder {s d : ℕ → Slice Buf} (hsd : ∀ q < n, (s q).Disjoint (d q)) (w : ℕ)
    (m : ℕ → RankMem α) {r : ℕ} (hr : r < n) :
    Script.exec (Script.hops (getNextRank n) (hopOrder n) s d w) m r
      = (m r).write (d r) ((m (getPrevRank n r)).read (s (getPrevRank n r))) := by
  have hmem : getPrevRank n r ∈ hopOrder n := mem_hopOrder.mpr (getPrevRank_lt (by omega))
  have hexec := (Script.exec_hops (nodup_map_hopOrder n)
    (fun q hq => hsd q (mem_hopOrder.mp hq)) w m).1 _ hmem
  rwa [getNextRank_getPrevRank hr] at hexec

section Rounds

variable {recvBuf : ℕ → Buf} {w : ℕ} (m : ℕ → RankMem α) {c i : ℕ}

/-- A round of the first phase combines the element of the previous rank into
that of the rank which receives its chunk; elsewhere it does not change. -/
theorem exec_reduceScatterStep (hrecv : ∀ r, recvBuf r ≠ .tempBuffer) (red : Reducer α)
    {step r : ℕ} (hstep : step < n) (hr : r < n) (hi : InChunk n count c i) :
    Script.exec (reduceScatterStep n count w recvBuf red step) m r (recvBuf r) i
      = if AllReduceReduceScatter.recvChunk n r step = c then
          red.combine (m (getPrevRank n r) (recvBuf (getPrevRank n r)) i) (m r (recvBuf r) i)
        else m r (recvBuf r) i := by
  have hsend : AllReduceReduceScatter.sendChunk n (getPrevRank n r) step
      = AllReduceReduceScatter.recvChunk n r step := by
    rw [AllReduceReduceScatter.sendChunk_eq_recvChunk hstep, getNextRank_getPrevRank hr]
  rw [reduceScatterStep, Script.exec_append, Script.exec_locals_range _ _ hr,
    red.perform_apply (hrecv r).symm,
    exec_hopOrder (fun q _ => Slice.disjoint_of_buf_ne (hrecv q)) w m hr, hsend]
  generalize hrc : AllReduceReduceScatter.recvChunk n r step = rc
  have hkeep : ∀ xs, (m r).write ⟨.tempBuffer, 0, actualCount n count rc⟩ xs (recvBuf r) i
      = m r (recvBuf r) i :=
    fun xs => Mem.write_of_not_has fun h => hrecv r h.1
  by_cases hc : rc = c
  · -- the received chunk lies at the start of `tempBuffer`
    subst hc
    have hhas : (⟨.tempBuffer, 0, actualCount n count rc⟩ : Slice Buf).Has .tempBuffer
        (0 + (i - rc * chunkSize n count)) := by
      obtain ⟨hlo, hhi⟩ := hi
      exact ⟨rfl, Nat.zero_le _, by simp only; omega⟩
    have hcell : (chunkSlice n (recvBuf (getPrevRank n r)) count rc).off
        + (0 + (i - rc * chunkSize n count) - 0) = i := by
      obtain ⟨hlo, -⟩ := hi
      simp only [chunkSlice]
      omega
    have hlen : (chunkSlice n (recvBuf (getPrevRank n r)) count rc).len
        = (⟨.tempBuffer, 0, actualCount n count rc⟩ : Slice Buf).len := rfl
    rw [if_pos ⟨rfl, hi⟩, if_pos rfl, hkeep, Mem.write_read_apply _ _ hlen, if_pos hhas]
    simp only [hcell]
    rfl
  · have hout : ¬ (recvBuf r = recvBuf r ∧ InChunk n count rc i) := by
      rintro ⟨-, hin⟩
      exact hc (hin.unique hi)
    rw [if_neg hc, ← hkeep]
    exact if_neg hout

/-- A round of the second phase copies the element of the previous rank. -/
theorem exec_chunkGatherStep (hn : 2 ≤ n) {step r : ℕ} (hstep : step < n) (hr : r < n)
    (hi : InChunk n count c i) :
    Script.exec (chunkGatherStep n count w recvBuf step) m r (recvBuf r) i
      = if AllReduceAllGather.recvChunk n r step = c then
          m (getPrevRank n r) (recvBuf (getPrevRank n r)) i
        else m r (recvBuf r) i := by
  have hsend : AllReduceAllGather.sendChunk n (getPrevRank n r) step
      = AllReduceAllGather.recvChunk n r step := by
    rw [AllReduceAllGather.sendChunk_eq_recvChunk hstep, getNextRank_getPrevRank hr]
  rw [chunkGatherStep, exec_hopOrder (fun q _ => chunkSlice_disjoint
    (AllReduceAllGather.sendChunk_ne_recvChunk hn hstep q) n _ count) w m hr, hsend]
  generalize AllReduceAllGather.recvChunk n r step = rc
  have hlen : (chunkSlice n (recvBuf (getPrevRank n r)) count rc).len
      = (chunkSlice n (recvBuf r) count rc).len := rfl
  rw [Mem.write_read_apply _ _ hlen]
  by_cases hc : rc = c
  · subst hc
    rw [if_pos ((inChunk_iff_has _).mp hi), if_pos rfl]
    congr 1
    obtain ⟨hlo, -⟩ := hi
    simp only [chunkSlice]
    omega
  · rw [if_neg hc, if_neg]
    intro hin
    exact hc (((inChunk_iff_has _).mpr hin).unique hi)

/-! ### The two phases -/

/-- **First phase**: after `S` rounds, the positions up to `S` hold the fold of
the inputs up to theirs. -/
theorem exec_reduceScatterSteps (hrecv : ∀ r, recvBuf r ≠ .tempBuffer) (red : Reducer α)
    (hc : c < n) (hi : InChunk n count c i) {S : ℕ} (hS : S ≤ n - 1) {k : ℕ} (hk : k < n) :
    Script.exec ((List.range S).flatMap (reduceScatterStep n count w recvBuf red)) m
        (rankAt n c k) (recvBuf (rankAt n c k)) i
      = if k ≤ S then
          chainFold red.combine (fun p => m (rankAt n c p) (recvBuf (rankAt n c p)) i) k
        else m (rankAt n c k) (recvBuf (rankAt n c k)) i := by
  induction S generalizing k with
  | zero =>
      cases k with
      | zero => rfl
      | succ k => rfl
  | succ S ih =>
      rw [List.range_succ, List.flatMap_append, List.flatMap_singleton, Script.exec_append,
        exec_reduceScatterStep _ hrecv red (by omega) (rankAt_lt (by omega) k) hi,
        ih (by omega) hk]
      by_cases hkS : k = S + 1
      · -- the position that receives the chunk in this round
        subst hkS
        rw [if_pos ((AllReduceReduceScatter.recvChunk_rankAt hc hk (by omega)).mpr rfl),
          if_neg (by omega), if_pos le_rfl, getPrevRank_rankAt (by omega),
          ih (by omega) (by omega), if_pos le_rfl, chainFold]
      · rw [if_neg (mt (AllReduceReduceScatter.recvChunk_rankAt hc hk (by omega)).mp hkS)]
        have hiff : k ≤ S + 1 ↔ k ≤ S := by omega
        simp only [hiff]

/-- **Second phase**: after `S` rounds, the positions below `S` hold the value
of the last position. -/
theorem exec_chunkGatherSteps (hn : 2 ≤ n) (hc : c < n) (hi : InChunk n count c i) {S : ℕ}
    (hS : S ≤ n - 1) {k : ℕ} (hk : k < n) :
    Script.exec ((List.range S).flatMap (chunkGatherStep n count w recvBuf)) m
        (rankAt n c k) (recvBuf (rankAt n c k)) i
      = if k < S then m (rankAt n c (n - 1)) (recvBuf (rankAt n c (n - 1))) i
        else m (rankAt n c k) (recvBuf (rankAt n c k)) i := by
  induction S generalizing k with
  | zero => rfl
  | succ S ih =>
      rw [List.range_succ, List.flatMap_append, List.flatMap_singleton, Script.exec_append,
        exec_chunkGatherStep _ hn (by omega) (rankAt_lt (by omega) k) hi, ih (by omega) hk]
      by_cases hkS : k = S
      · subst hkS
        rw [if_pos ((AllReduceAllGather.recvChunk_rankAt hc hk (by omega)).mpr rfl),
          if_pos (Nat.lt_succ_self k)]
        cases k with
        | zero =>
            -- the first round takes the value from the last position
            have hlast : getPrevRank n (rankAt n c 0) = rankAt n c (n - 1) := by
              rw [rankAt_zero hc, ← getPrevRank_rankAt (by omega) c (n - 1),
                show n - 1 + 1 = n by omega, rankAt_self hc]
            rw [hlast, ih (by omega) (by omega)]
            exact if_neg (Nat.not_lt_zero _)
        | succ k =>
            rw [getPrevRank_rankAt (by omega), ih (by omega) (by omega),
              if_pos (Nat.lt_succ_self k)]
      · rw [if_neg (mt (AllReduceAllGather.recvChunk_rankAt hc hk (by omega)).mp hkS)]
        have hiff : k < S + 1 ↔ k < S := by omega
        simp only [hiff]

end Rounds

/-! ### The result of a call -/

section Result

variable (sendBuf recvBuf : ℕ → Buf) {w : ℕ} (m : ℕ → RankMem α)

/-- The first copy of `AllReduce`. -/
theorem exec_copyInput (N : ℕ) {r i : ℕ} (hr : r < N) (hi : i < count) :
    Script.exec (Script.locals (List.range N) fun r m =>
        m.copy (recvBuf r) 0 (sendBuf r) 0 count) m r (recvBuf r) i
      = m r (sendBuf r) i := by
  rw [Script.exec_locals_range _ _ hr, Mem.copy_start _ hi, if_pos rfl, Nat.zero_add]

/-- For three ranks or more, the value of an element is the fold of the inputs
in the order of the ranks from its chunk on, at every rank. -/
theorem exec_chunksScript (hn : 2 ≤ n) (hrecv : ∀ r, recvBuf r ≠ .tempBuffer)
    (red : Reducer α) {c i : ℕ} (hc : c < n) (hi : InChunk n count c i) (hcount : i < count)
    {r : ℕ} (hr : r < n) :
    Script.exec (chunksScript n count w sendBuf recvBuf red) m r (recvBuf r) i
      = chainFold red.combine (fun p => m (rankAt n c p) (sendBuf (rankAt n c p)) i) (n - 1) := by
  obtain ⟨k, hk, rfl⟩ := exists_rankAt hc hr
  rw [chunksScript, Script.exec_append, Script.exec_append,
    exec_chunkGatherSteps _ hn hc hi le_rfl hk]
  have hfold : ∀ k, k < n → Script.exec ((List.range (n - 1)).flatMap
        (reduceScatterStep n count w recvBuf red))
        (Script.exec (Script.locals (List.range n) fun r m =>
          m.copy (recvBuf r) 0 (sendBuf r) 0 count) m)
        (rankAt n c k) (recvBuf (rankAt n c k)) i
      = chainFold red.combine (fun p => m (rankAt n c p) (sendBuf (rankAt n c p)) i) k := by
    intro k hk
    rw [exec_reduceScatterSteps _ hrecv red hc hi le_rfl hk, if_pos (by omega)]
    exact chainFold_congr fun p _ =>
      exec_copyInput sendBuf recvBuf m n (rankAt_lt (by omega) p) hcount
  by_cases hlast : k < n - 1
  · rw [if_pos hlast]
    exact hfold (n - 1) (by omega)
  · have hk' : k = n - 1 := by omega
    rw [if_neg hlast, hk']
    exact hfold (n - 1) (by omega)

/-- For two ranks, each combines the input of the other into its own. -/
theorem exec_twoRanksScript (hrecv : ∀ r, recvBuf r ≠ .peerData) (red : Reducer α) {i : ℕ}
    (hi : i < count) {r : ℕ} (hr : r < 2) :
    Script.exec (twoRanksScript count w sendBuf recvBuf red) m r (recvBuf r) i
      = red.combine (m (1 - r) (sendBuf (1 - r)) i) (m r (sendBuf r) i) := by
  have hprev : getPrevRank 2 r = 1 - r := by
    rw [getPrevRank_of_lt hr]
    split_ifs <;> omega
  have hmem : 1 - r ∈ List.range 2 := List.mem_range.mpr (by omega)
  have hnodup : ((List.range 2).map (getNextRank 2)).Nodup := by decide
  have hnext : getNextRank 2 (1 - r) = r := by
    rw [← hprev, getNextRank_getPrevRank hr]
  have hhops := fun m : ℕ → RankMem α => (Script.exec_hops hnodup
    (s := fun r => ⟨recvBuf r, 0, count⟩) (d := fun _ => ⟨.peerData, 0, count⟩)
    (fun q _ => Slice.disjoint_of_buf_ne (hrecv q)) w m).1 (1 - r) hmem
  simp only [hnext] at hhops
  rw [twoRanksScript, Script.exec_append, Script.exec_append, Script.exec_locals_range _ _ hr,
    hhops, red.perform_received _ _ (hrecv r).symm _ hi,
    exec_copyInput sendBuf recvBuf m 2 hr hi, exec_copyInput sendBuf recvBuf m 2 (by omega) hi]

end Result

/-! ### Correctness over every run -/

theorem image_rankAt {c : ℕ} (hc : c < n) :
    (Finset.range (n - 1 + 1)).image (rankAt n c) = Finset.range n := by
  rw [show n - 1 + 1 = n by omega]
  ext r
  rw [Finset.mem_image]
  constructor
  · rintro ⟨k, -, rfl⟩
    exact Finset.mem_range.mpr (rankAt_lt (by omega) k)
  · intro hr
    obtain ⟨k, hk, rfl⟩ := exists_rankAt hc (Finset.mem_range.mp hr)
    exact ⟨k, Finset.mem_range.mpr hk, rfl⟩

section Runs

variable {sendBuf recvBuf : ℕ → ℕ} {dtype : DataType} {red : Reducer α}
  {m : ℕ → RankMem α} {s : Fifo ℕ Buf α}

/-- In every completed run among three ranks or more, all ranks hold the same
fold of the inputs. -/
theorem value_of_completed (hn : 3 ≤ n)
    (hs : Fifo.step.Reaches
      (Fifo.init (callTeam n (.allReduce sendBuf recvBuf count dtype red)) m) s)
    (hdone : ∀ r < n, (s.node r).Finished) {i : ℕ} (hi : i < count) :
    ∃ c < n, ∀ r < n, (s.node r).mem (.user (recvBuf r)) i
      = chainFold red.combine (fun p => m (rankAt n c p) (.user (sendBuf (rankAt n c p))) i)
        (n - 1) := by
  obtain ⟨c, hc, hin⟩ := exists_inChunk (n := n) (by omega) hi
  refine ⟨c, hc, ?_⟩
  intro r hr
  rw [mem_of_completed (by omega) hs hdone trivial, callScript, allReduceScript,
    if_neg (by omega)]
  exact exec_chunksScript (userBuf sendBuf) (userBuf recvBuf) m (by omega)
    (fun r => Buf.noConfusion) red hc hin hi hr

/-- In every completed run among two ranks, each has combined the input of the
other into its own. -/
theorem value_of_completed_two
    (hs : Fifo.step.Reaches
      (Fifo.init (callTeam 2 (.allReduce sendBuf recvBuf count dtype red)) m) s)
    (hdone : ∀ r < 2, (s.node r).Finished) {r i : ℕ} (hr : r < 2) (hi : i < count) :
    (s.node r).mem (.user (recvBuf r)) i
      = red.combine (m (1 - r) (.user (sendBuf (1 - r))) i) (m r (.user (sendBuf r)) i) := by
  rw [mem_of_completed le_rfl hs hdone trivial, callScript, allReduceScript, if_pos rfl]
  exact exec_twoRanksScript (userBuf sendBuf) (userBuf recvBuf) m (fun r => Buf.noConfusion)
    red hi hr

end Runs

section Results

variable {sendBuf recvBuf : ℕ → ℕ} {dtype : DataType}

/-- **`AllReduce` on the ring is correct**: in every completed run, in whatever
order the ranks took their steps, every rank holds the reduction over all ranks
of each element. -/
theorem ring_allReduce_correct {w : ℕ} (hn : 2 ≤ n) {op : ReduceOp} (hop : op ≠ .avg)
    {m : ℕ → RankMem (BitVec w)} {s : Fifo ℕ Buf (BitVec w)}
    (hs : Fifo.step.Reaches (Fifo.init
      (callTeam n (.allReduce sendBuf recvBuf count dtype (.performReduce op n))) m) s)
    (hdone : ∀ r < n, (s.node r).Finished) {r i : ℕ} (hr : r < n) (hi : i < count) :
    IsReduction op (Finset.range n) (fun q => m q (.user (sendBuf q)) i)
      ((s.node r).mem (.user (recvBuf r)) i) := by
  by_cases htwo : n = 2
  · subst htwo
    have hrange : Finset.range 2 = {1 - r} ∪ {r} := by
      ext q
      simp only [Finset.mem_range, Finset.mem_union, Finset.mem_singleton]
      omega
    rw [value_of_completed_two hs hdone hr hi, combine_performReduce hop, hrange]
    exact (IsReduction.singleton hop _ (1 - r)).merge hop (.singleton hop _ r)
      (Finset.disjoint_singleton.mpr (by omega))
  · obtain ⟨c, hc, hvalue⟩ := value_of_completed (by omega) hs hdone hi
    rw [hvalue r hr, combine_performReduce hop, ← image_rankAt hc]
    refine isReduction_chainFold hop (fun q => m q (.user (sendBuf q)) i) ?_
    intro p hp q hq h
    have hp := Set.mem_Iic.mp hp
    have hq := Set.mem_Iic.mp hq
    exact rankAt_inj hc (by omega) (by omega) h

/-- Three ranks that contribute their rank numbers all end with 0 + 1 + 2. -/
theorem ring_allReduce_correct_three :
    ∃ s, Fifo.step.Reaches (Fifo.init (callTeam 3 (.allReduce (fun _ => 0) (fun _ => 1) 4 .int32
        (.performReduce .sum 3))) fun r _ _ => BitVec.ofNat 32 r) s ∧
      (∀ r < 3, (s.node r).Finished) ∧
      ∀ r < 3, ∀ i < 4, (s.node r).mem (.user 1) i = 3#32 := by
  obtain ⟨s, hs, hdone⟩ := exists_completed (n := 3) (by decide)
    (c := .allReduce (fun _ => 0) (fun _ => 1) 4 .int32
      (Reducer.performReduce (w := 32) .sum 3)) trivial fun r _ _ => BitVec.ofNat 32 r
  refine ⟨s, hs, hdone, ?_⟩
  intro r hr i hi
  have hred := ring_allReduce_correct (n := 3) (by decide) (by decide) hs hdone hr hi
  exact hred.trans (by decide)

/-- **All ranks agree**, for any commutative combine function: each element is
combined once, along one chain, and then copied. -/
theorem ring_allReduce_agree (hn : 2 ≤ n) {f : α → α → α} (hf : ∀ a b, f a b = f b a)
    {m : ℕ → RankMem α} {s : Fifo ℕ Buf α}
    (hs : Fifo.step.Reaches
      (Fifo.init (callTeam n (.allReduce sendBuf recvBuf count dtype (.elementwise f))) m) s)
    (hdone : ∀ r < n, (s.node r).Finished) {q r i : ℕ} (hq : q < n) (hr : r < n)
    (hi : i < count) :
    (s.node q).mem (.user (recvBuf q)) i = (s.node r).mem (.user (recvBuf r)) i := by
  by_cases htwo : n = 2
  · -- each rank combines by itself, in the other order
    subst htwo
    rw [value_of_completed_two hs hdone hq hi, value_of_completed_two hs hdone hr hi]
    rcases (show q = r ∨ r = 1 - q by omega) with rfl | rfl
    · rfl
    · rw [show 1 - (1 - q) = q by omega]
      exact hf _ _
  · obtain ⟨c, hc, hvalue⟩ := value_of_completed (by omega) hs hdone hi
    rw [hvalue q hq, hvalue r hr]

/-- Three ranks, chunks of two elements, and the commutative but not associative
`fun a b => 1 - a * b`. -/
theorem ring_allReduce_agree_three :
    ∃ s, Fifo.step.Reaches (Fifo.init (callTeam 3 (.allReduce (fun _ => 0) (fun _ => 1) 6 .int32
        (.elementwise fun a b : ℤ => 1 - a * b))) fun r _ i => (r : ℤ) + i) s ∧
      (∀ r < 3, (s.node r).Finished) ∧
      ∀ q < 3, ∀ r < 3, ∀ i < 6, (s.node q).mem (.user 1) i = (s.node r).mem (.user 1) i := by
  obtain ⟨s, hs, hdone⟩ := exists_completed (n := 3) (by decide)
    (c := .allReduce (fun _ => 0) (fun _ => 1) 6 .int32
      (.elementwise fun a b : ℤ => 1 - a * b)) trivial fun r _ i => (r : ℤ) + i
  refine ⟨s, hs, hdone, ?_⟩
  intro q hq r hr i hi
  exact ring_allReduce_agree (n := 3) (by decide) (fun a b => by rw [mul_comm]) hs hdone hq hr hi

end Results

end MiniCcl.TopologyRing
