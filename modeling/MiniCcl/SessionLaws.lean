/-
MiniCcl/SessionLaws.lean

How the collectives work together.

What a session of well posed calls leaves is the composition of meanings, so laws about
sessions are laws about meanings, and they hold for completed runs on either topology.  The
two topologies agree.  `Gather` undoes `Scatter`, `AllToAll` undoes itself, and `AllReduce`
is as good as `Reduce` followed by `Broadcast` or as `ReduceScatter` followed by
`AllGather`.
-/
import MiniCcl.Sessions

namespace MiniCcl

variable {α : Type*} {n : ℕ}

/-! ### Meanings of calls in a row -/

namespace Call

variable {count root i r : ℕ} {a b c : ℕ → ℕ} {dtype : DataType} {red : Reducer α}
  {M : UserMem α}

theorem broadcast_apply (hr : r < n) (hi : i < count) :
    (broadcast b count dtype root).meaning n M r (b r) i = M root (b root) i :=
  meaning_buf (c := broadcast b count dtype root) (M := M) hr rfl hi

theorem scatter_apply (hr : r < n) (hi : i < count) :
    (scatter a b count dtype root).meaning n M r (b r) i = M root (a root) (r * count + i) :=
  meaning_buf (c := scatter a b count dtype root) (M := M) hr rfl hi

theorem allGather_apply (hr : r < n) (hi : i < n * count) :
    (allGather a b count dtype).meaning n M r (b r) i
      = M (i / count) (a (i / count)) (i % count) :=
  meaning_buf (c := allGather a b count dtype) (M := M) hr rfl hi

theorem reduceScatter_apply (hr : r < n) (hi : i < count) :
    (reduceScatter a b count dtype red).meaning n M r (b r) i
      = chainFold red.combine (fun q => M q (a q) (r * count + i)) (n - 1) :=
  meaning_buf (c := reduceScatter a b count dtype red) (M := M) hr rfl hi

theorem allReduce_apply (hr : r < n) (hi : i < count) :
    (allReduce a b count dtype red).meaning n M r (b r) i
      = chainFold red.combine (fun q => M q (a q) i) (n - 1) :=
  meaning_buf (c := allReduce a b count dtype red) (M := M) hr rfl hi

theorem allToAll_apply (hr : r < n) (hi : i < n * count) :
    (allToAll a b count dtype).meaning n M r (b r) i
      = M (i / count) (a (i / count)) (r * count + i % count) :=
  meaning_buf (c := allToAll a b count dtype) (M := M) hr rfl hi

theorem gather_apply (hroot : root < n) (hi : i < n * count) :
    (gather a b count dtype root).meaning n M root (b root) i
      = M (i / count) (a (i / count)) (i % count) := by
  have hd : (gather a b count dtype root).delivery n M root
      = some ⟨b root, n * count, fun i => M (i / count) (a (i / count)) (i % count)⟩ := if_pos rfl
  exact meaning_buf hroot hd hi

theorem reduce_apply (hroot : root < n) (hi : i < count) :
    (reduce a b count dtype red root).meaning n M root (b root) i
      = chainFold red.combine (fun q => M q (a q) i) (n - 1) := by
  have hd : (reduce a b count dtype red root).delivery n M root
      = some ⟨b root, count, fun i => chainFold red.combine (fun q => M q (a q) i) (n - 1)⟩ :=
    if_pos rfl
  exact meaning_buf hroot hd hi

variable (M)

theorem gather_after_scatter (hroot : root < n) (hi : i < n * count) :
    (gather b c count dtype root).meaning n ((scatter a b count dtype root).meaning n M) root
        (c root) i
      = M root (a root) i := by
  obtain ⟨hdiv, hmod⟩ := Slice.div_lt_mod_lt hi
  rw [gather_apply hroot hi, scatter_apply hdiv hmod, Nat.div_add_mod']

theorem allToAll_after_allToAll (hr : r < n) (hi : i < n * count) :
    (allToAll b c count dtype).meaning n ((allToAll a b count dtype).meaning n M) r (c r) i
      = M r (a r) i := by
  obtain ⟨hdiv, hmod⟩ := Slice.div_lt_mod_lt hi
  have hrow : (r * count + i % count) / count = r := by
    rw [Nat.mul_comm, Nat.mul_add_div (by omega), Nat.div_eq_of_lt hmod, Nat.add_zero]
  have hcol : (r * count + i % count) % count = i % count := by
    rw [Nat.mul_comm, Nat.mul_add_mod, Nat.mod_mod]
  rw [allToAll_apply hr hi, allToAll_apply hdiv (Slice.block_lt hr hmod), hrow, hcol,
    Nat.div_add_mod']

theorem broadcast_after_reduce (hroot : root < n) (hr : r < n) (hi : i < count) :
    (broadcast b count dtype root).meaning n ((reduce a b count dtype red root).meaning n M) r
        (b r) i
      = (allReduce a b count dtype red).meaning n M r (b r) i := by
  rw [broadcast_apply hr hi, reduce_apply hroot hi, allReduce_apply hr hi]

theorem allGather_after_reduceScatter (hr : r < n) (hi : i < n * count) :
    (allGather c b count dtype).meaning n ((reduceScatter a c count dtype red).meaning n M) r
        (b r) i
      = (allReduce a b (n * count) dtype red).meaning n M r (b r) i := by
  obtain ⟨hdiv, hmod⟩ := Slice.div_lt_mod_lt hi
  rw [allGather_apply hr hi, reduceScatter_apply hdiv hmod, allReduce_apply hr hi]
  simp only [Nat.div_add_mod']

end Call

/-! ### Laws of sessions -/

section Calls

variable {topology : TopologyType} (hn : 2 ≤ n) {cs : List (Call α)}
  (hcs : ∀ c ∈ cs, c.WellPosed topology n)
include hcs

theorem Operation.wellPosed_map : ∀ o ∈ cs.map collective, o.WellPosed topology n := by
  intro o ho
  obtain ⟨c, hc, rfl⟩ := List.mem_map.mp ho
  exact hcs c hc

include hn

theorem TopologyType.exists_completed_calls (m : ℕ → RankMem α) :
    ∃ s, Fifo.step.Reaches (Fifo.init (topology.sessionTeam n (cs.map .collective)) m) s ∧
      ∀ r < n, (s.node r).Finished :=
  exists_completed_session hn (Operation.valid_of_wellPosed (Operation.wellPosed_map hcs)) m

/-- What completed runs of a session of calls leave in the callers' buffers. -/
theorem TopologyType.userMem_of_calls {m : ℕ → RankMem α} {s : Fifo ℕ Buf α}
    (hs : Fifo.step.Reaches (Fifo.init (topology.sessionTeam n (cs.map .collective)) m) s)
    (hdone : ∀ r < n, (s.node r).Finished) :
    userMem (fun r => (s.node r).mem) = cs.foldl (fun M c => c.meaning n M) (userMem m) := by
  rw [userMem_of_completed hn hs hdone (Operation.wellPosed_map hcs), List.foldl_map]
  rfl

end Calls

theorem forall_mem_pair {γ : Type*} {p : γ → Prop} {x y : γ} (hx : p x) (hy : p y) :
    ∀ z ∈ [x, y], p z :=
  List.forall_mem_cons.mpr ⟨hx, List.forall_mem_singleton.mpr hy⟩

section Laws

variable {topology : TopologyType} (hn : 2 ≤ n) {m : ℕ → RankMem α} {s : Fifo ℕ Buf α}
include hn

/-- **The two topologies agree**: after the same calls on the same data, all buffers of all
callers are the same. -/
theorem topologies_agree {cs : List (Call α)}
    (hcs : ∀ c ∈ cs, c.WellPosed .fullMesh n ∧ c.WellPosed .ring n)
    (hs : Fifo.step.Reaches
      (Fifo.init (TopologyType.fullMesh.sessionTeam n (cs.map .collective)) m) s)
    (hdone : ∀ r < n, (s.node r).Finished) {t : Fifo ℕ Buf α}
    (ht : Fifo.step.Reaches
      (Fifo.init (TopologyType.ring.sessionTeam n (cs.map .collective)) m) t)
    (hdone' : ∀ r < n, (t.node r).Finished) :
    userMem (fun r => (s.node r).mem) = userMem (fun r => (t.node r).mem) :=
  (TopologyType.userMem_of_calls hn (fun c hc => (hcs c hc).1) hs hdone).trans
    (TopologyType.userMem_of_calls hn (fun c hc => (hcs c hc).2) ht hdone').symm

omit hn in
/-- Four ranks sum up their rank numbers. -/
theorem topologies_agree_four : ∃ s t : Fifo ℕ Buf (BitVec 32),
    (∀ r < 4, (s.node r).Finished) ∧ (∀ r < 4, (t.node r).Finished) ∧
      userMem (fun r => (s.node r).mem) = userMem (fun r => (t.node r).mem) := by
  have hsum : Orderless (Reducer.performReduce (w := 32) .sum 4).combine :=
    orderless_performReduce (by decide) 4
  have hcs : ∀ c ∈ [Call.allReduce (fun _ => 0) (fun _ => 1) 4 .int32
      (.performReduce (w := 32) .sum 4)], c.WellPosed .fullMesh 4 ∧ c.WellPosed .ring 4 :=
    List.forall_mem_singleton.mpr ⟨⟨trivial, trivial, ⟨hsum, fun _ => ⟨2, rfl⟩⟩, nofun⟩,
      ⟨trivial, trivial, ⟨hsum, nofun⟩, fun _ _ => by decide⟩⟩
  obtain ⟨s, hs, hdone⟩ := TopologyType.exists_completed_calls (by decide)
    (fun c hc => (hcs c hc).1) fun r _ _ => BitVec.ofNat 32 r
  obtain ⟨t, ht, hdone'⟩ := TopologyType.exists_completed_calls (by decide)
    (fun c hc => (hcs c hc).2) fun r _ _ => BitVec.ofNat 32 r
  exact ⟨s, t, hdone, hdone', topologies_agree (by decide) hcs hs hdone ht hdone'⟩

/-- **What was scattered is gathered again**, over whichever buffers it went. -/
theorem scatter_gather_roundtrip {a b c : ℕ → ℕ} {count root : ℕ} {dtype : DataType}
    (hroot : root < n) (hab : a root ≠ b root)
    (hs : Fifo.step.Reaches (Fifo.init (topology.sessionTeam n (List.map .collective
      [.scatter a b count dtype root, .gather b c count dtype root])) m) s)
    (hdone : ∀ r < n, (s.node r).Finished) {i : ℕ} (hi : i < n * count) :
    (s.node root).mem (.user (c root)) i = m root (.user (a root)) i := by
  have hcs : ∀ x ∈ [.scatter a b count dtype root, .gather b c count dtype root],
      Call.WellPosed (α := α) topology n x :=
    forall_mem_pair ⟨hroot, hab, trivial, trivial⟩ ⟨hroot, trivial, trivial, trivial⟩
  have hmem := TopologyType.userMem_of_calls hn hcs hs hdone
  calc (s.node root).mem (.user (c root)) i
      = userMem (fun r => (s.node r).mem) root (c root) i := rfl
    _ = m root (.user (a root)) i := by
        rw [hmem]
        exact Call.gather_after_scatter (userMem m) hroot hi

omit hn in
/-- Rank 1 of three scatters six elements and gathers them into another buffer. -/
theorem scatter_gather_roundtrip_three : ∃ s : Fifo ℕ Buf ℕ,
    (∀ r < 3, (s.node r).Finished) ∧ ∀ i < 6, (s.node 1).mem (.user 2) i = i := by
  have hcs : ∀ x ∈ [.scatter (fun _ => 0) (fun _ => 1) 2 .int32 1,
      .gather (fun _ => 1) (fun _ => 2) 2 .int32 1], Call.WellPosed (α := ℕ) .ring 3 x :=
    forall_mem_pair ⟨by simp [Call.Valid], by simp [Call.Separate], trivial, trivial⟩
      ⟨by simp [Call.Valid], trivial, trivial, trivial⟩
  obtain ⟨s, hs, hdone⟩ := TopologyType.exists_completed_calls (by decide) hcs fun _ _ i => i
  exact ⟨s, hdone, fun i hi => scatter_gather_roundtrip (by decide) (by decide) (by decide) hs
    hdone hi⟩

/-- **Two exchanges of everybody's blocks cancel.** -/
theorem allToAll_twice {a b c : ℕ → ℕ} {count : ℕ} {dtype : DataType}
    (hab : ∀ r < n, a r ≠ b r) (hbc : ∀ r < n, b r ≠ c r)
    (hs : Fifo.step.Reaches (Fifo.init (topology.sessionTeam n (List.map .collective
      [.allToAll a b count dtype, .allToAll b c count dtype])) m) s)
    (hdone : ∀ r < n, (s.node r).Finished) {r i : ℕ} (hr : r < n) (hi : i < n * count) :
    (s.node r).mem (.user (c r)) i = m r (.user (a r)) i := by
  have hcs : ∀ x ∈ [.allToAll a b count dtype, .allToAll b c count dtype],
      Call.WellPosed (α := α) topology n x :=
    forall_mem_pair ⟨trivial, hab, trivial, trivial⟩ ⟨trivial, hbc, trivial, trivial⟩
  have hmem := TopologyType.userMem_of_calls hn hcs hs hdone
  calc (s.node r).mem (.user (c r)) i
      = userMem (fun r => (s.node r).mem) r (c r) i := rfl
    _ = m r (.user (a r)) i := by
        rw [hmem]
        exact Call.allToAll_after_allToAll (userMem m) hr hi

omit hn in
/-- Three ranks of a full mesh exchange their rank numbers twice. -/
theorem allToAll_twice_three : ∃ s : Fifo ℕ Buf ℕ,
    (∀ r < 3, (s.node r).Finished) ∧ ∀ r < 3, ∀ i < 3, (s.node r).mem (.user 2) i = r := by
  have hcs : ∀ x ∈ [.allToAll (fun _ => 0) (fun _ => 1) 1 .int32,
      .allToAll (fun _ => 1) (fun _ => 2) 1 .int32], Call.WellPosed (α := ℕ) .fullMesh 3 x :=
    forall_mem_pair ⟨trivial, by simp [Call.Separate], trivial, trivial⟩
      ⟨trivial, by simp [Call.Separate], trivial, trivial⟩
  obtain ⟨s, hs, hdone⟩ := TopologyType.exists_completed_calls (by decide) hcs fun r _ _ => r
  exact ⟨s, hdone, fun r hr i hi =>
    allToAll_twice (by decide) (by decide) (by decide) hs hdone hr hi⟩

end Laws

/-- **`AllReduce` in three ways**: in one call, as `Reduce` to any root and `Broadcast` from
it, and as `ReduceScatter` and `AllGather`.  Each may run on a topology of its own. -/
theorem allReduce_three_ways {topology topology₁ topology₂ : TopologyType} (hn : 2 ≤ n)
    {a b c : ℕ → ℕ} {count root : ℕ} {dtype : DataType} {red : Reducer α}
    (hall : (Call.allReduce a b (n * count) dtype red).WellPosed topology n)
    (hreduce : (Call.reduce a b (n * count) dtype red root).WellPosed topology₁ n)
    (hscatter : (Call.reduceScatter a c count dtype red).WellPosed topology₂ n)
    (hgather : (Call.allGather (α := α) c b count dtype).WellPosed topology₂ n)
    {m : ℕ → RankMem α} {s s₁ s₂ : Fifo ℕ Buf α}
    (hs : Fifo.step.Reaches (Fifo.init (topology.sessionTeam n (List.map .collective
      [.allReduce a b (n * count) dtype red])) m) s)
    (hdone : ∀ r < n, (s.node r).Finished)
    (hs₁ : Fifo.step.Reaches (Fifo.init (topology₁.sessionTeam n (List.map .collective
      [.reduce a b (n * count) dtype red root, .broadcast b (n * count) dtype root])) m) s₁)
    (hdone₁ : ∀ r < n, (s₁.node r).Finished)
    (hs₂ : Fifo.step.Reaches (Fifo.init (topology₂.sessionTeam n (List.map .collective
      [.reduceScatter a c count dtype red, .allGather c b count dtype])) m) s₂)
    (hdone₂ : ∀ r < n, (s₂.node r).Finished) {r i : ℕ} (hr : r < n) (hi : i < n * count) :
    (s₁.node r).mem (.user (b r)) i = (s.node r).mem (.user (b r)) i ∧
      (s₂.node r).mem (.user (b r)) i = (s.node r).mem (.user (b r)) i := by
  have hbroadcast : (Call.broadcast (α := α) b (n * count) dtype root).WellPosed topology₁ n :=
    ⟨hreduce.valid, trivial, trivial, trivial⟩
  have hmem := TopologyType.userMem_of_calls hn (List.forall_mem_singleton.mpr hall) hs hdone
  have hmem₁ := TopologyType.userMem_of_calls hn
    (forall_mem_pair hreduce hbroadcast) hs₁ hdone₁
  have hmem₂ := TopologyType.userMem_of_calls hn
    (forall_mem_pair hscatter hgather) hs₂ hdone₂
  have hone : (s.node r).mem (.user (b r)) i
      = (Call.allReduce a b (n * count) dtype red).meaning n (userMem m) r (b r) i :=
    congrFun (congrFun (congrFun hmem r) (b r)) i
  rw [hone]
  constructor
  · exact (congrFun (congrFun (congrFun hmem₁ r) (b r)) i).trans
      (Call.broadcast_after_reduce (userMem m) hreduce.valid hr hi)
  · exact (congrFun (congrFun (congrFun hmem₂ r) (b r)) i).trans
      (Call.allGather_after_reduceScatter (userMem m) hr hi)

/-- Four ranks, on a ring, a ring and a full mesh. -/
theorem allReduce_three_ways_four : ∃ s s₁ s₂ : Fifo ℕ Buf (BitVec 32),
    (∀ r < 4, (s.node r).Finished ∧ (s₁.node r).Finished ∧ (s₂.node r).Finished) ∧
      ∀ r < 4, ∀ i < 8, (s₁.node r).mem (.user 1) i = (s.node r).mem (.user 1) i ∧
        (s₂.node r).mem (.user 1) i = (s.node r).mem (.user 1) i := by
  let sum : Reducer (BitVec 32) := .performReduce .sum 4
  have horderless : Orderless sum.combine := orderless_performReduce (by decide) 4
  have hall : (Call.allReduce (fun _ => 0) (fun _ => 1) (4 * 2) .int32 sum).WellPosed .ring 4 :=
    ⟨trivial, trivial, ⟨horderless, fun h => absurd h (by decide)⟩, fun _ _ => by decide⟩
  have hreduce : (Call.reduce (fun _ => 0) (fun _ => 1) (4 * 2) .int32 sum 1).WellPosed .ring 4 :=
    ⟨by simp [Call.Valid], trivial, horderless, trivial⟩
  have hbroadcast : (Call.broadcast (α := BitVec 32) (fun _ => 1) (4 * 2) .int32
      1).WellPosed .ring 4 := ⟨by simp [Call.Valid], trivial, trivial, trivial⟩
  have hscatter : (Call.reduceScatter (fun _ => 0) (fun _ => 2) 2 .int32 sum).WellPosed
      .fullMesh 4 := ⟨trivial, trivial, ⟨horderless, fun _ => ⟨2, rfl⟩⟩, trivial⟩
  have hgather : (Call.allGather (α := BitVec 32) (fun _ => 2) (fun _ => 1) 2 .int32).WellPosed
      .fullMesh 4 := ⟨trivial, by simp [Call.Separate], trivial, trivial⟩
  let m : ℕ → RankMem (BitVec 32) := fun r _ i => BitVec.ofNat 32 (10 * r + i)
  obtain ⟨s, hs, hdone⟩ := TopologyType.exists_completed_calls (by decide)
    (List.forall_mem_singleton.mpr hall) m
  obtain ⟨s₁, hs₁, hdone₁⟩ := TopologyType.exists_completed_calls (by decide)
    (forall_mem_pair hreduce hbroadcast) m
  obtain ⟨s₂, hs₂, hdone₂⟩ := TopologyType.exists_completed_calls (by decide)
    (forall_mem_pair hscatter hgather) m
  refine ⟨s, s₁, s₂, fun r hr => ⟨hdone r hr, hdone₁ r hr, hdone₂ r hr⟩, fun r hr i hi => ?_⟩
  exact allReduce_three_ways (by decide) hall hreduce hscatter hgather hs hdone hs₁ hdone₁ hs₂
    hdone₂ hr hi

end MiniCcl
