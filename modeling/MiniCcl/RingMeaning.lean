/-
MiniCcl/RingMeaning.lean

The collectives of the ring do what they are meant to.

The same as for the full mesh, with chains instead of stars: data passes through buffers
of the ranks on its way, which are not the callers', and a reduction starts at some rank
and goes around.  It agrees with a fold in the order of the ranks because the chain visits
each of them once.

`AllReduce` works on chunks of `recv_buf`; only where the last chunk starts inside the
buffer is everything behind the buffer left alone.
-/
import MiniCcl.Frame
import MiniCcl.Meaning
import MiniCcl.RingBlocks

namespace MiniCcl.TopologyRing

variable {α : Type*} {n root count : ℕ}

theorem rankFrom_last (hroot : root < n) : rankFrom n root (n - 1) = root := by
  rw [rankFrom, Nat.sub_self, rankAt_zero hroot]

/-! ### What is left alone -/

section Keeps

variable {w r i k : ℕ} {sendBuf recvBuf : ℕ → Buf}

theorem keeps_broadcastScript {buffer : ℕ → Buf} (h : ¬ (.user k = buffer r ∧ i < count)) :
    ∀ e ∈ (broadcastScript n count w root buffer : Script ℕ Buf α), e.Keeps r (.user k) i := by
  refine Script.keeps_chain (fun p _ hr => ?_) fun _ _ _ _ hf => absurd hf List.not_mem_nil
  rw [← hr]
  exact Slice.not_has_start h

theorem keeps_gatherScript (hroot : root < n)
    (h : r = root → ¬ (.user k = recvBuf r ∧ i < n * count)) :
    ∀ e ∈ (gatherScript n count w root sendBuf recvBuf : Script ℕ Buf α),
      e.Keeps r (.user k) i := by
  have hblock {c : ℕ} (hr : r = root) (hc : c < n) :
      ¬ (⟨recvBuf r, c * count, count⟩ : Slice Buf).Has (.user k) i := Slice.not_has_block hc (h hr)
  refine List.forall_mem_append.mpr ⟨Script.keeps_locals fun _ m => ?_, Script.keeps_chain ?_ ?_⟩
  · by_cases hr : r = root
    · rw [if_pos hr]
      exact Mem.copy_of_not_has (hblock hr hroot)
    · rw [if_neg hr]
      exact Mem.copy_of_not_has (Slice.not_has_of_ne Buf.noConfusion _ _)
  · intro p _ _
    by_cases hlast : p + 1 = n - 1
    · rw [if_pos hlast]
      exact Slice.not_has_of_ne Buf.noConfusion _ _
    · rw [if_neg hlast]
      exact Slice.not_has_of_ne Buf.noConfusion _ _
  · intro p _ hr f hf m
    by_cases hlast : p + 1 = n - 1
    · -- only the root puts blocks into a buffer of its caller
      rw [hlast, rankFrom_last hroot] at hr
      rw [if_pos hlast] at hf
      obtain ⟨j, -, rfl⟩ := List.mem_map.mp hf
      rw [← hr] at hblock ⊢
      exact Mem.copy_of_not_has (hblock rfl (Nat.mod_lt _ (by omega)))
    · rw [if_neg hlast] at hf
      exact absurd hf List.not_mem_nil

theorem keeps_scatterScript (h : ¬ (.user k = recvBuf r ∧ i < count)) :
    ∀ e ∈ (scatterScript n count w root sendBuf recvBuf : Script ℕ Buf α),
      e.Keeps r (.user k) i := by
  refine List.forall_mem_cons.mpr ⟨Event.keeps_act ?_, Script.keeps_flatMap fun step _ =>
    Script.keeps_chain (fun p _ hr => ?_) fun _ _ _ _ hf => absurd hf List.not_mem_nil⟩
  · rintro rfl m
    exact Mem.copy_of_not_has (Slice.not_has_start h)
  · by_cases hstep : p + 1 = step
    · rw [scatterSlot, if_pos hstep, ← hr]
      exact Slice.not_has_start h
    · rw [scatterSlot, if_neg hstep]
      exact Slice.not_has_of_ne Buf.noConfusion _ _

theorem keeps_reduceScript (hroot : root < n) {red : Reducer α}
    (hrecv : recvBuf root ≠ .tempBuffer)
    (h : r = root → ¬ (.user k = recvBuf r ∧ i < count)) :
    ∀ e ∈ reduceScript n count w root sendBuf recvBuf red, e.Keeps r (.user k) i := by
  refine List.forall_mem_append.mpr ⟨Script.keeps_locals fun _ m => ?_, Script.keeps_chain ?_ ?_⟩
  · by_cases hr : r = root
    · rw [if_pos hr]
      exact Mem.copy_of_not_has (Slice.not_has_start (h hr))
    · rw [if_neg hr]
      exact Mem.copy_of_not_has (Slice.not_has_of_ne Buf.noConfusion _ _)
  · intro p _ _
    by_cases hlast : p + 1 = n - 1
    · rw [reduceSlot, if_pos hlast]
      exact Slice.not_has_of_ne Buf.noConfusion _ _
    · rw [reduceSlot, if_neg hlast]
      exact Slice.not_has_of_ne Buf.noConfusion _ _
  · intro p _ hr f hf m
    by_cases hlast : p + 1 = n - 1
    · rw [hlast, rankFrom_last hroot] at hr
      subst hr
      rw [reduceActs, if_pos hlast] at hf
      obtain rfl := List.mem_singleton.mp hf
      exact red.perform_of_not_has hrecv.symm (Slice.not_has_start (h rfl)) m
    · rw [reduceActs, if_neg hlast] at hf
      obtain rfl := List.mem_singleton.mp hf
      exact red.perform_of_not_has Buf.noConfusion (Slice.not_has_of_ne Buf.noConfusion _ _) m

theorem keeps_allGatherScript (hr : r < n) (h : ¬ (.user k = recvBuf r ∧ i < n * count)) :
    ∀ e ∈ (allGatherScript n count w sendBuf recvBuf : Script ℕ Buf α),
      e.Keeps r (.user k) i := by
  refine List.forall_mem_append.mpr ⟨Script.keeps_locals fun _ _ => ?_,
    Script.keeps_flatMap fun step _ => Script.keeps_hops fun _ _ _ => ?_⟩
  · exact Mem.copy_of_not_has (Slice.not_has_block hr h)
  · exact Slice.not_has_block (Nat.mod_lt _ (by omega)) h

theorem keeps_reduceScatterScript (hn : 0 < n) {red : Reducer α}
    (h : ¬ (.user k = recvBuf r ∧ i < count)) :
    ∀ e ∈ reduceScatterScript n count w sendBuf recvBuf red, e.Keeps r (.user k) i := by
  refine List.forall_mem_append.mpr ⟨keeps_reduceScript hn Buf.noConfusion ?_,
    keeps_scatterScript h⟩
  rintro - ⟨hbuf, -⟩
  exact Buf.noConfusion hbuf

theorem keeps_twoRanksScript {red : Reducer α} (hrecv : recvBuf r ≠ .peerData)
    (h : ¬ (.user k = recvBuf r ∧ i < count)) :
    ∀ e ∈ twoRanksScript count w sendBuf recvBuf red, e.Keeps r (.user k) i := by
  refine List.forall_mem_append.mpr ⟨Script.keeps_locals fun _ _ => ?_,
    List.forall_mem_append.mpr ⟨Script.keeps_hops fun _ _ _ => ?_,
      Script.keeps_locals fun _ m => ?_⟩⟩
  · exact Mem.copy_of_not_has (Slice.not_has_start h)
  · exact Slice.not_has_of_ne Buf.noConfusion _ _
  · exact red.perform_of_not_has hrecv.symm (Slice.not_has_start h) m

/-- If the last chunk starts inside the buffer, no chunk leaves it. -/
theorem not_has_chunkSlice (hinside : (n - 1) * chunkSize n count ≤ count) {b b' : Buf} {c : ℕ}
    (hc : c < n) (h : ¬ (b = b' ∧ i < count)) : ¬ (chunkSlice n b' count c).Has b i := by
  rintro ⟨rfl, hchunk⟩
  refine h ⟨rfl, lt_count_of_inChunk (le_trans ?_ hinside) hchunk⟩
  exact Nat.mul_le_mul_right _ (by omega)

theorem keeps_chunksScript (hinside : (n - 1) * chunkSize n count ≤ count) {red : Reducer α}
    (hr : r < n) (hrecv : recvBuf r ≠ .tempBuffer) (h : ¬ (.user k = recvBuf r ∧ i < count)) :
    ∀ e ∈ chunksScript n count w sendBuf recvBuf red, e.Keeps r (.user k) i := by
  have hchunk (a : ℕ) : ¬ (chunkSlice n (recvBuf r) count (a % n)).Has (.user k) i :=
    not_has_chunkSlice hinside (Nat.mod_lt a (by omega)) h
  refine List.forall_mem_append.mpr ⟨Script.keeps_locals fun _ _ => ?_,
    List.forall_mem_append.mpr ⟨Script.keeps_flatMap fun step _ =>
      List.forall_mem_append.mpr ⟨Script.keeps_hops fun _ _ _ => ?_,
        Script.keeps_locals fun _ m => ?_⟩,
      Script.keeps_flatMap fun step _ => Script.keeps_hops fun _ _ _ => hchunk _⟩⟩
  · exact Mem.copy_of_not_has (Slice.not_has_start h)
  · exact Slice.not_has_of_ne Buf.noConfusion _ _
  · exact red.perform_of_not_has hrecv.symm (hchunk _) m

theorem keeps_allToAllScript (hr : r < n) (h : ¬ (.user k = recvBuf r ∧ i < n * count)) :
    ∀ e ∈ (allToAllScript n count w sendBuf recvBuf : Script ℕ Buf α),
      e.Keeps r (.user k) i := by
  refine List.forall_mem_append.mpr ⟨Script.keeps_locals fun _ _ => ?_,
    Script.keeps_flatMap fun src hsrc => List.forall_mem_append.mpr
      ⟨Script.keeps_locals fun _ m => ?_,
        List.forall_mem_append.mpr ⟨keeps_broadcastScript ?_, Script.keeps_locals fun _ _ => ?_⟩⟩⟩
  · exact Mem.copy_of_not_has (Slice.not_has_block hr h)
  · by_cases hrs : r = src
    · rw [if_pos hrs]
      exact Mem.copy_of_not_has (Slice.not_has_of_ne Buf.noConfusion _ _)
    · rw [if_neg hrs]
  · exact fun hbuf => Buf.noConfusion hbuf.1
  · exact Mem.copy_of_not_has (Slice.not_has_block (List.mem_range.mp hsrc) h)

theorem keeps_barrierScript :
    ∀ e ∈ (barrierScript n : Script ℕ Buf α), e.Keeps r (.user k) i := by
  have hround : ∀ e ∈ (barrierRoundScript n : Script ℕ Buf α), e.Keeps r (.user k) i :=
    Script.keeps_hops fun _ _ _ => Slice.not_has_of_ne Buf.noConfusion _ _
  exact List.forall_mem_append.mpr ⟨hround, hround⟩

end Keeps

/-! ### Reductions over all ranks -/

section Folds

variable {f : α → α → α} (hf : Orderless f) (x : ℕ → α)
include hf

/-- A chain through all ranks agrees with the order of the ranks. -/
theorem chainFold_of_image (hn : 1 ≤ n) {e : ℕ → ℕ}
    (he : ∀ p < n, ∀ q < n, e p = e q → p = q) (himage : ∀ p < n, e p < n) :
    chainFold f (fun p => x (e p)) (n - 1) = chainFold f x (n - 1) := by
  have hinj : Set.InjOn e (Set.Iic (n - 1)) := fun p hp q hq h =>
    he p (by have := Set.mem_Iic.mp hp; omega) q (by have := Set.mem_Iic.mp hq; omega) h
  have hranks : (Finset.range (n - 1 + 1)).image e = Finset.range n := by
    rw [Nat.sub_add_cancel hn]
    refine Finset.eq_of_subset_of_card_le (Finset.image_subset_iff.mpr fun p hp => ?_) ?_
    · exact Finset.mem_range.mpr (himage p (Finset.mem_range.mp hp))
    · rw [Finset.card_image_of_injOn fun p hp q hq h =>
        he p (Finset.mem_range.mp hp) q (Finset.mem_range.mp hq) h]
  have hchain := Combination.chainFold f x hinj
  rw [hranks] at hchain
  exact hchain.unique hf (.rankOrder f x hn)

theorem chainFold_rankAt (hroot : root < n) :
    chainFold f (fun p => x (rankAt n root p)) (n - 1) = chainFold f x (n - 1) :=
  chainFold_of_image hf x (by omega) (fun _ hp _ hq h => rankAt_inj hroot hp hq h)
    fun p _ => rankAt_lt (by omega) p

theorem chainFold_rankFrom (hroot : root < n) :
    chainFold f (fun p => x (rankFrom n root p)) (n - 1) = chainFold f x (n - 1) :=
  chainFold_of_image hf x (by omega) (fun _ hp _ hq h => rankFrom_inj hroot hp hq h)
    fun _ _ => rankAt_lt (by omega) _

/-- Two ranks only differ in the order. -/
theorem chainFold_two {r : ℕ} (hr : r < 2) : f (x (1 - r)) (x r) = chainFold f x (2 - 1) := by
  rcases (show r = 0 ∨ r = 1 by omega) with rfl | rfl
  · exact hf.comm (x 1) (x 0)
  · rfl

end Folds

/-! ### The meaning of the scripts -/

section Scripts

variable {w : ℕ} {sendBuf recvBuf : ℕ → ℕ} {red : Reducer α} (hred : Orderless red.combine)
  (m : ℕ → RankMem α) {r i : ℕ} (hr : r < n) (hi : i < count)
include hred hr hi

theorem exec_allReduceScript (hn : 2 ≤ n) :
    Script.exec (allReduceScript n count w (userBuf sendBuf) (userBuf recvBuf) red) m r
        (userBuf recvBuf r) i
      = chainFold red.combine (fun q => m q (userBuf sendBuf q) i) (n - 1) := by
  by_cases htwo : n = 2
  · subst htwo
    rw [allReduceScript, if_pos rfl,
      exec_twoRanksScript _ _ m (fun _ => Buf.noConfusion) red hi hr]
    exact chainFold_two hred (fun q => m q (userBuf sendBuf q) i) hr
  · obtain ⟨c, hc, hin⟩ := exists_inChunk (n := n) (by omega) hi
    rw [allReduceScript, if_neg htwo,
      exec_chunksScript _ _ m hn (fun _ => Buf.noConfusion) red hc hin hi hr]
    exact chainFold_rankAt hred (fun q => m q (userBuf sendBuf q) i) hc

end Scripts

theorem keeps_allReduceScript {w r k i : ℕ} {sendBuf recvBuf : ℕ → ℕ} {red : Reducer α}
    (hr : r < n) (hinside : 3 ≤ n → (n - 1) * chunkSize n count ≤ count) (hn : 2 ≤ n)
    (h : ¬ (.user k = userBuf recvBuf r ∧ i < count)) :
    ∀ e ∈ allReduceScript n count w (userBuf sendBuf) (userBuf recvBuf) red,
      e.Keeps r (.user k) i := by
  by_cases htwo : n = 2
  · rw [allReduceScript, if_pos htwo]
    exact keeps_twoRanksScript Buf.noConfusion h
  · rw [allReduceScript, if_neg htwo]
    exact keeps_chunksScript (hinside (by omega)) hr Buf.noConfusion h

/-- **Every script of the ring computes what its call means**, and touches nothing else of
the callers' buffers. -/
theorem userMem_exec_callScript (hn : 2 ≤ n) {c : Call α} (hc : c.WellPosed .ring n)
    (m : ℕ → RankMem α) {r : ℕ} (hr : r < n) :
    userMem (Script.exec (callScript n c) m) r = c.meaning n (userMem m) r := by
  obtain ⟨hvalid, hseparate, hreduces, hinside⟩ := hc
  have hcell {b : ℕ → ℕ} {k i len : ℕ} (h : ¬ (k = b r ∧ i < len)) :
      ¬ (Buf.user k = userBuf b r ∧ i < len) :=
    fun hb => h ⟨Buf.user.inj hb.1, hb.2⟩
  have hkeeps {C : Script ℕ Buf α} {k i : ℕ} (h : ∀ e ∈ C, e.Keeps r (.user k) i) :
      userMem (Script.exec C m) r k i = userMem m r k i := Script.exec_of_keeps h m
  cases c with
  | broadcast buffer count dtype root =>
      refine Call.eq_meaning_of_some hr rfl (fun i hi => ?_) fun k i hki => ?_
      · exact exec_broadcastScript (userBuf buffer) m hvalid _ hr hi
      · exact hkeeps (keeps_broadcastScript (hcell hki))
  | gather sendBuf recvBuf count dtype root =>
      by_cases hrt : r = root
      · subst hrt
        refine Call.eq_meaning_of_some hr (if_pos rfl) (fun i hi => ?_) fun k i hki => ?_
        · obtain ⟨hdiv, hmod⟩ := Slice.div_lt_mod_lt hi
          have hexec := exec_gatherScript (userBuf sendBuf) (userBuf recvBuf) m hn hr
            (getDataTypeSize dtype) Buf.noConfusion hdiv hmod
          rwa [Nat.div_add_mod'] at hexec
        · exact hkeeps (keeps_gatherScript hr fun _ => hcell hki)
      · have hnone : (Call.gather sendBuf recvBuf count dtype root).delivery n (userMem m) r
            = none := if_neg hrt
        rw [Call.meaning_of_none hnone]
        funext k i
        exact hkeeps (keeps_gatherScript hvalid fun h => absurd h hrt)
  | scatter sendBuf recvBuf count dtype root =>
      refine Call.eq_meaning_of_some hr rfl (fun i hi => ?_) fun k i hki => ?_
      · have hne : userBuf recvBuf root ≠ userBuf sendBuf root :=
          fun h => hseparate (Buf.user.inj h).symm
        exact exec_scatterScript hvalid (fun _ => Buf.noConfusion) Buf.noConfusion _ hne m hr hi
      · exact hkeeps (keeps_scatterScript (hcell hki))
  | reduce sendBuf recvBuf count dtype red root =>
      by_cases hrt : r = root
      · subst hrt
        refine Call.eq_meaning_of_some hr (if_pos rfl) (fun i hi => ?_) fun k i hki => ?_
        · exact (exec_reduceScript (userBuf sendBuf) (userBuf recvBuf) red m hn hr _
            Buf.noConfusion hi).trans
            (chainFold_rankFrom hreduces (fun q => m q (userBuf sendBuf q) i) hr)
        · exact hkeeps (keeps_reduceScript hr Buf.noConfusion fun _ => hcell hki)
      · have hnone : (Call.reduce sendBuf recvBuf count dtype red root).delivery n (userMem m) r
            = none := if_neg hrt
        rw [Call.meaning_of_none hnone]
        funext k i
        exact hkeeps (keeps_reduceScript hvalid Buf.noConfusion fun h => absurd h hrt)
  | allGather sendBuf recvBuf count dtype =>
      refine Call.eq_meaning_of_some hr rfl (fun i hi => ?_) fun k i hki => ?_
      · obtain ⟨hdiv, hmod⟩ := Slice.div_lt_mod_lt hi
        have hexec : Script.exec (allGatherScript n count (getDataTypeSize dtype)
            (userBuf sendBuf) (userBuf recvBuf)) m r (userBuf recvBuf r)
              (i / count * count + i % count)
            = m (i / count) (userBuf sendBuf (i / count)) (i % count) :=
          exec_allGatherScript hn _ _ hdiv hmod hr
        rwa [Nat.div_add_mod'] at hexec
      · exact hkeeps (keeps_allGatherScript hr (hcell hki))
  | reduceScatter sendBuf recvBuf count dtype red =>
      refine Call.eq_meaning_of_some hr rfl (fun i hi => ?_) fun k i hki => ?_
      · exact (exec_reduceScatterScript hn _ (fun _ => Buf.noConfusion) Buf.noConfusion red m
          hr hi).trans
          (chainFold_rankFrom hreduces.1 (fun q => m q (userBuf sendBuf q) (r * count + i))
            (by omega))
      · exact hkeeps (keeps_reduceScatterScript (by omega) (hcell hki))
  | allReduce sendBuf recvBuf count dtype red =>
      refine Call.eq_meaning_of_some hr rfl (fun i hi => ?_) fun k i hki => ?_
      · exact exec_allReduceScript hreduces.1 m hr hi hn
      · exact hkeeps (keeps_allReduceScript hr (hinside rfl) hn (hcell hki))
  | allToAll sendBuf recvBuf count dtype =>
      refine Call.eq_meaning_of_some hr rfl (fun i hi => ?_) fun k i hki => ?_
      · obtain ⟨hdiv, hmod⟩ := Slice.div_lt_mod_lt hi
        have hne : ∀ r < n, userBuf sendBuf r ≠ userBuf recvBuf r :=
          fun r hr h => hseparate r hr (Buf.user.inj h)
        have hexec := exec_allToAllScript (fun _ _ => Buf.noConfusion)
          (fun _ _ => Buf.noConfusion) hne (getDataTypeSize dtype) m hr hdiv hmod
        rwa [Nat.div_add_mod'] at hexec
      · exact hkeeps (keeps_allToAllScript hr (hcell hki))
  | barrier =>
      rw [Call.meaning_of_none rfl]
      funext k i
      exact hkeeps keeps_barrierScript

end MiniCcl.TopologyRing
