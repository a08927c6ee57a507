/-
MiniCcl/MeshMeaning.lean

The collectives of the full mesh do what they are meant to.

What each of them delivers is known from `MeshBlocks`, `MeshRooted` and `MeshAllReduce`;
here it is put together with what they leave alone.  Reductions come out as stars or by
recursive doubling, and agree with a fold in the order of the ranks because they go through
the same ranks.
-/
import MiniCcl.Frame
import MiniCcl.Meaning
import MiniCcl.MeshAllReduce
import MiniCcl.MeshBlocks
import MiniCcl.MeshRooted

namespace MiniCcl.TopologyFullMesh

variable {α : Type*} {n root count : ℕ}

/-! ### What is left alone -/

section Keeps

variable {w r i k : ℕ} {sendBuf recvBuf : ℕ → Buf}

theorem keeps_broadcastScript {buffer : ℕ → Buf} (h : ¬ (.user k = buffer r ∧ i < count)) :
    ∀ e ∈ (broadcastScript n count w root buffer : Script ℕ Buf α), e.Keeps r (.user k) i :=
  Script.keeps_outward fun _ => Slice.not_has_start h

theorem keeps_gatherScript (hroot : root < n)
    (h : r = root → ¬ (.user k = recvBuf r ∧ i < n * count)) :
    ∀ e ∈ (gatherScript n count w root sendBuf recvBuf : Script ℕ Buf α),
      e.Keeps r (.user k) i := by
  refine List.forall_mem_cons.mpr ⟨Event.keeps_act ?_, Script.keeps_inward ?_ ?_⟩
  · rintro rfl m
    exact Mem.copy_of_not_has (Slice.not_has_block hroot (h rfl))
  · rintro p hp rfl
    exact Slice.not_has_block (mem_peersOf.mp hp).1 (h rfl)
  · exact fun _ _ _ _ hf => absurd hf List.not_mem_nil

theorem keeps_scatterScript (h : ¬ (.user k = recvBuf r ∧ i < count)) :
    ∀ e ∈ (scatterScript n count w root sendBuf recvBuf : Script ℕ Buf α),
      e.Keeps r (.user k) i := by
  refine List.forall_mem_cons.mpr ⟨Event.keeps_act ?_, Script.keeps_outward fun _ => ?_⟩
  · rintro rfl m
    exact Mem.copy_of_not_has (Slice.not_has_start h)
  · exact Slice.not_has_start h

theorem keeps_reduceScript {red : Reducer α} (hrecv : recvBuf root ≠ .tempBuffer)
    (h : r = root → ¬ (.user k = recvBuf r ∧ i < count)) :
    ∀ e ∈ reduceScript n count w root sendBuf recvBuf red, e.Keeps r (.user k) i := by
  refine List.forall_mem_cons.mpr ⟨Event.keeps_act ?_, Script.keeps_inward ?_ ?_⟩
  · rintro rfl m
    exact Mem.copy_of_not_has (Slice.not_has_start (h rfl))
  · exact fun _ _ _ => Slice.not_has_of_ne Buf.noConfusion _ _
  · rintro p - rfl f hf m
    obtain rfl := List.mem_singleton.mp hf
    exact red.perform_of_not_has hrecv.symm (Slice.not_has_start (h rfl)) m

theorem keeps_exchanges {s : ℕ → ℕ → Slice Buf} (h : ¬ (.user k = recvBuf r ∧ i < n * count)) :
    ∀ e ∈ (exchanges n w s (fun r p => ⟨recvBuf r, p * count, count⟩) : Script ℕ Buf α),
      e.Keeps r (.user k) i := by
  intro e he
  obtain ⟨q, p, ⟨hq, -, -⟩, rfl⟩ := (transfers_exchanges w s _ e).mp he
  refine Event.keeps_comm ?_
  rintro rfl
  exact Slice.not_has_block hq h

theorem keeps_allGatherScript (h : ¬ (.user k = recvBuf r ∧ i < n * count)) :
    ∀ e ∈ (allGatherScript n count w sendBuf recvBuf : Script ℕ Buf α), e.Keeps r (.user k) i :=
  List.forall_mem_append.mpr ⟨Script.keeps_locals fun hr _ =>
    Mem.copy_of_not_has (Slice.not_has_block (List.mem_range.mp hr) h), keeps_exchanges h⟩

theorem keeps_allToAllScript (h : ¬ (.user k = recvBuf r ∧ i < n * count)) :
    ∀ e ∈ (allToAllScript n count w sendBuf recvBuf : Script ℕ Buf α), e.Keeps r (.user k) i :=
  List.forall_mem_append.mpr ⟨Script.keeps_locals fun hr _ =>
    Mem.copy_of_not_has (Slice.not_has_block (List.mem_range.mp hr) h), keeps_exchanges h⟩

/-- The rounds of doubling receive into `tmp` and compute what `perform` does. -/
theorem keeps_doubling {L : List ℕ} {s : ℕ → Slice Buf} {tmp : Buf} {len blocks : ℕ}
    {perform : ℕ → ℕ → RankMem α → RankMem α} (htmp : .user k ≠ tmp)
    (h : ∀ j, ∀ m, perform j r m (.user k) i = m (.user k) i) :
    ∀ e ∈ L.flatMap (doublingStep n w s (fun _ => ⟨tmp, 0, len⟩) perform blocks),
      e.Keeps r (.user k) i := by
  refine Script.keeps_flatMap fun mask _ => List.forall_mem_append.mpr ⟨?_, ?_⟩
  · exact Script.keeps_hops fun _ _ _ => Slice.not_has_of_ne htmp _ _
  · exact Script.keeps_flatMap fun j _ => Script.keeps_locals fun _ => h j

theorem keeps_reduceScatterScript {red : Reducer α}
    (h : ¬ (.user k = recvBuf r ∧ i < count)) :
    ∀ e ∈ reduceScatterScript n count w sendBuf recvBuf red, e.Keeps r (.user k) i := by
  refine List.forall_mem_append.mpr ⟨?_, List.forall_mem_append.mpr ⟨?_, ?_⟩⟩
  · exact Script.keeps_locals fun _ _ =>
      Mem.copy_of_not_has (Slice.not_has_of_ne Buf.noConfusion _ _)
  · refine keeps_doubling Buf.noConfusion fun j m => ?_
    exact red.perform_of_not_has Buf.noConfusion (Slice.not_has_of_ne Buf.noConfusion _ _) m
  · exact Script.keeps_locals fun _ _ => Mem.copy_of_not_has (Slice.not_has_start h)

theorem keeps_allReduceScript {red : Reducer α} (hrecv : recvBuf r ≠ .tempBuffer)
    (h : ¬ (.user k = recvBuf r ∧ i < count)) :
    ∀ e ∈ allReduceScript n count w sendBuf recvBuf red, e.Keeps r (.user k) i := by
  refine List.forall_mem_append.mpr ⟨?_, ?_⟩
  · exact Script.keeps_locals fun _ _ => Mem.copy_of_not_has (Slice.not_has_start h)
  · exact keeps_doubling Buf.noConfusion fun j m =>
      red.perform_of_not_has hrecv.symm (Slice.not_has_start h) m

theorem keeps_barrierScript :
    ∀ e ∈ (barrierScript n : Script ℕ Buf α), e.Keeps r (.user k) i :=
  List.forall_mem_append.mpr
    ⟨Script.keeps_inward (fun _ _ _ => Slice.not_has_of_ne Buf.noConfusion _ _)
        fun _ _ _ _ hf => absurd hf List.not_mem_nil,
      Script.keeps_outward fun _ => Slice.not_has_of_ne Buf.noConfusion _ _⟩

end Keeps

/-! ### Reductions over all ranks -/

section Folds

variable {f : α → α → α} (hf : Orderless f) (x : ℕ → α)
include hf

theorem starFold_peersOf (hroot : root < n) :
    starFold f x (x root) (peersOf n root) = chainFold f x (n - 1) := by
  have hstar : Combination f x ({root} ∪ (peersOf n root).toFinset)
      (starFold f x (x root) (peersOf n root)) := by
    refine Combination.starFold (nodup_peersOf n root) (.input root) fun p hp hmem => ?_
    exact (mem_peersOf.mp hp).2 (Finset.mem_singleton.mp hmem)
  have hranks : {root} ∪ (peersOf n root).toFinset = Finset.range n := by
    ext r
    simp only [Finset.mem_range, Finset.mem_union, Finset.mem_singleton, List.mem_toFinset,
      mem_peersOf]
    omega
  rw [hranks] at hstar
  exact hstar.unique hf (.rankOrder f x (by omega))

theorem doublingFold_of_two_pow (hpow : ∃ k, n = 2 ^ k) {r : ℕ} (hr : r < n) :
    doublingFold f n x (Nat.clog 2 n) r = chainFold f x (n - 1) := by
  have hdoubling := combination_doublingFold f x (Nat.clog 2 n) hr
  obtain ⟨k, rfl⟩ := hpow
  rw [Nat.clog_pow 2 k (by decide), contributors_two_pow hr] at hdoubling
  rw [Nat.clog_pow 2 k (by decide)]
  exact hdoubling.unique hf (.rankOrder f x (by omega))

end Folds

/-! ### The meaning of the scripts -/

/-- **Every script of the full mesh computes what its call means**, and touches nothing
else of the callers' buffers. -/
theorem userMem_exec_callScript {c : Call α} (hc : c.WellPosed .fullMesh n) (m : ℕ → RankMem α)
    {r : ℕ} (hr : r < n) :
    userMem (Script.exec (callScript n c) m) r = c.meaning n (userMem m) r := by
  obtain ⟨hvalid, hseparate, hreduces, -⟩ := hc
  have hcell {b : ℕ → ℕ} {k i len : ℕ} (h : ¬ (k = b r ∧ i < len)) :
      ¬ (Buf.user k = userBuf b r ∧ i < len) :=
    fun hb => h ⟨Buf.user.inj hb.1, hb.2⟩
  have hkeeps {C : Script ℕ Buf α} {k i : ℕ} (h : ∀ e ∈ C, e.Keeps r (.user k) i) :
      userMem (Script.exec C m) r k i = userMem m r k i := Script.exec_of_keeps h m
  cases c with
  | broadcast buffer count dtype root =>
      refine Call.eq_meaning_of_some hr rfl (fun i hi => ?_) fun k i hki => ?_
      · exact exec_broadcastScript _ m (userBuf buffer) hr hi
      · exact hkeeps (keeps_broadcastScript (hcell hki))
  | gather sendBuf recvBuf count dtype root =>
      by_cases hrt : r = root
      · subst hrt
        refine Call.eq_meaning_of_some hr (if_pos rfl) (fun i hi => ?_) fun k i hki => ?_
        · obtain ⟨hdiv, hmod⟩ := Slice.div_lt_mod_lt hi
          have hexec : Script.exec (gatherScript n count (getDataTypeSize dtype) r
              (userBuf sendBuf) (userBuf recvBuf)) m r (userBuf recvBuf r)
                (i / count * count + i % count)
              = m (i / count) (userBuf sendBuf (i / count)) (i % count) :=
            exec_gatherScript _ _ hdiv hmod
          rwa [Nat.div_add_mod'] at hexec
        · exact hkeeps (keeps_gatherScript hr fun _ => hcell hki)
      · have hnone : (Call.gather sendBuf recvBuf count dtype root).delivery n (userMem m) r
            = none := if_neg hrt
        rw [Call.meaning_of_none hnone]
        funext k i
        exact hkeeps (keeps_gatherScript hvalid fun h => absurd h hrt)
  | scatter sendBuf recvBuf count dtype root =>
      refine Call.eq_meaning_of_some hr rfl (fun i hi => ?_) fun k i hki => ?_
      · have hne : userBuf recvBuf root ≠ userBuf sendBuf root :=
          fun h => hseparate (Buf.user.inj h).symm
        exact (exec_scatterScript_self _ m hr hi).trans (exec_scatterScript_root _ m hne _)
      · exact hkeeps (keeps_scatterScript (hcell hki))
  | reduce sendBuf recvBuf count dtype red root =>
      by_cases hrt : r = root
      · subst hrt
        refine Call.eq_meaning_of_some hr (if_pos rfl) (fun i hi => ?_) fun k i hki => ?_
        · exact (exec_reduceScript (userBuf sendBuf) (userBuf recvBuf) red m _ Buf.noConfusion
            hi).trans (starFold_peersOf hreduces _ hr)
        · exact hkeeps (keeps_reduceScript Buf.noConfusion fun _ => hcell hki)
      · have hnone : (Call.reduce sendBuf recvBuf count dtype red root).delivery n (userMem m) r
            = none := if_neg hrt
        rw [Call.meaning_of_none hnone]
        funext k i
        exact hkeeps (keeps_reduceScript Buf.noConfusion fun h => absurd h hrt)
  | allGather sendBuf recvBuf count dtype =>
      refine Call.eq_meaning_of_some hr rfl (fun i hi => ?_) fun k i hki => ?_
      · obtain ⟨hdiv, hmod⟩ := Slice.div_lt_mod_lt hi
        have hne : ∀ r < n, userBuf sendBuf r ≠ userBuf recvBuf r :=
          fun r hr h => hseparate rfl r hr (Buf.user.inj h)
        have hexec := exec_allGatherScript hne (getDataTypeSize dtype) m hr hdiv hmod
        rwa [Nat.div_add_mod'] at hexec
      · exact hkeeps (keeps_allGatherScript (hcell hki))
  | reduceScatter sendBuf recvBuf count dtype red =>
      refine Call.eq_meaning_of_some hr rfl (fun i hi => ?_) fun k i hki => ?_
      · exact (exec_reduceScatterScript (userBuf sendBuf) (userBuf recvBuf) red m hr hi).trans
          (doublingFold_of_two_pow hreduces.1 _ (hreduces.2 rfl) hr)
      · exact hkeeps (keeps_reduceScatterScript (hcell hki))
  | allReduce sendBuf recvBuf count dtype red =>
      refine Call.eq_meaning_of_some hr rfl (fun i hi => ?_) fun k i hki => ?_
      · exact (exec_allReduceScript (userBuf sendBuf) (userBuf recvBuf) red m
          (fun _ => Buf.noConfusion) hr hi).trans
          (doublingFold_of_two_pow hreduces.1 _ (hreduces.2 rfl) hr)
      · exact hkeeps (keeps_allReduceScript Buf.noConfusion (hcell hki))
  | allToAll sendBuf recvBuf count dtype =>
      refine Call.eq_meaning_of_some hr rfl (fun i hi => ?_) fun k i hki => ?_
      · obtain ⟨hdiv, hmod⟩ := Slice.div_lt_mod_lt hi
        have hne : ∀ r < n, userBuf sendBuf r ≠ userBuf recvBuf r :=
          fun r hr h => hseparate r hr (Buf.user.inj h)
        have hexec := exec_allToAllScript hne (getDataTypeSize dtype) m hr hdiv hmod
        rwa [Nat.div_add_mod'] at hexec
      · exact hkeeps (keeps_allToAllScript (hcell hki))
  | barrier =>
      rw [Call.meaning_of_none rfl]
      funext k i
      exact hkeeps keeps_barrierScript

end MiniCcl.TopologyFullMesh
