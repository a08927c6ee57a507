/-
MiniCcl/MeshRounds.lean

The buffers of `AllReduce` and `ReduceScatter` on the full mesh between two rounds.

A rank that is at the head of its doubling loop has combined the inputs of certain
ranks, each of them once, whatever the other ranks have done by then.
-/
import MiniCcl.Checkpoint
import MiniCcl.MeshAllReduce

namespace MiniCcl.TopologyFullMesh

open Prog

variable {α : Type*}

/-! ### The loops -/

section Loops

variable (worldSize rank : ℕ) (comm : Communicator) (sendBuf recvBuf : Buf) (count : ℕ)
  (dtype : DataType) (red : Reducer α)

/-- One round of `AllReduce`. -/
def allReduceRound (mask : ℕ) : RankProg α :=
  let peer := rank ^^^ mask
  if peer < worldSize then
    withTransport comm peer fun transport =>
      (swap rank transport ⟨recvBuf, 0, count⟩ ⟨.tempBuffer, 0, count⟩
        (getDataTypeSize dtype)).andThen
          (doAct (red.perform ⟨.tempBuffer, 0⟩ ⟨recvBuf, 0⟩ count))
  else ret true

/-- `AllReduce` at the head of its loop, after `k` rounds. -/
def allReduceLoop (k : ℕ) : RankProg α :=
  forEach ((masks worldSize).drop k)
    (allReduceRound worldSize rank comm recvBuf count dtype red)

theorem allReduce_eq :
    allReduce worldSize rank comm sendBuf recvBuf count dtype red
      = act (fun m => m.copy recvBuf 0 sendBuf 0 count)
          (allReduceLoop worldSize rank comm recvBuf count dtype red 0) := rfl

/-- One round of `ReduceScatter`. -/
def reduceScatterRound (mask : ℕ) : RankProg α :=
  let peer := rank ^^^ mask
  if peer < worldSize then
    withTransport comm peer fun transport =>
      (swap rank transport ⟨.tempRecvbuf, 0, count * worldSize⟩ ⟨.tempBuf, 0, count * worldSize⟩
        (getDataTypeSize dtype)).andThen <|
      forEach (List.range worldSize) fun i =>
        doAct (red.perform ⟨.tempBuf, i * count⟩ ⟨.tempRecvbuf, i * count⟩ count)
  else ret true

/-- `ReduceScatter` at the head of its loop, after `k` rounds. -/
def reduceScatterLoop (k : ℕ) : RankProg α :=
  (forEach ((masks worldSize).drop k)
    (reduceScatterRound worldSize rank comm count dtype red)).andThen
  (doAct fun m => m.copy recvBuf 0 .tempRecvbuf (rank * count) count)

theorem reduceScatter_eq :
    reduceScatter worldSize rank comm sendBuf recvBuf count dtype red
      = act (fun m => m.copy .tempRecvbuf 0 sendBuf 0 (count * worldSize))
          (reduceScatterLoop worldSize rank comm recvBuf count dtype red 0) := rfl

end Loops

/-- The first rounds of the doubling loops. -/
theorem masks_take {n k : ℕ} (hk : ∀ j < k, 2 ^ j < n) :
    (masks n).take k = (List.range k).map (2 ^ ·) := by
  have hle : k ≤ Nat.clog 2 n := by
    cases k with
    | zero => exact Nat.zero_le _
    | succ k => exact (Nat.lt_clog_iff_pow_lt (by decide)).mpr (hk k (Nat.lt_succ_self k))
  rw [masks_eq, ← List.map_take, List.take_range, Nat.min_eq_left hle]

/-- A doubling loop is its first rounds and then the others. -/
theorem forEach_masks (n k : ℕ) (round : ℕ → RankProg α) :
    forEach (masks n) round
      = (forEach ((masks n).take k) round).andThen (forEach ((masks n).drop k) round) := by
  rw [← forEach_append, List.take_append_drop]

/-! ### Scripts cut between two rounds -/

section Scripts

variable (n : ℕ) (sendBuf recvBuf : ℕ → Buf) (count : ℕ) (dtype : DataType) (red : Reducer α)

/-- The rounds of `AllReduce` with the masks `L`. -/
def allReduceRounds (L : List ℕ) : Script ℕ Buf α :=
  L.flatMap (doublingStep n (getDataTypeSize dtype) (fun r => ⟨recvBuf r, 0, count⟩)
    (fun _ => ⟨.tempBuffer, 0, count⟩)
    (fun _ r => red.perform ⟨.tempBuffer, 0⟩ ⟨recvBuf r, 0⟩ count) 1)

/-- `AllReduce` up to the head of its loop after `k` rounds. -/
def allReduceUpTo (k : ℕ) : Script ℕ Buf α :=
  Script.locals (List.range n) (fun r m => m.copy (recvBuf r) 0 (sendBuf r) 0 count) ++
    allReduceRounds n recvBuf count dtype red ((masks n).take k)

theorem allReduceScript_eq (k : ℕ) :
    allReduceScript n count (getDataTypeSize dtype) sendBuf recvBuf red
      = allReduceUpTo n sendBuf recvBuf count dtype red k
        ++ allReduceRounds n recvBuf count dtype red ((masks n).drop k) := by
  rw [allReduceUpTo, List.append_assoc, allReduceRounds, allReduceRounds, ← List.flatMap_append,
    List.take_append_drop]
  rfl

/-- The rounds of `ReduceScatter` with the masks `L`. -/
def reduceScatterRounds (L : List ℕ) : Script ℕ Buf α :=
  L.flatMap (doublingStep n (getDataTypeSize dtype) (fun _ => ⟨.tempRecvbuf, 0, count * n⟩)
    (fun _ => ⟨.tempBuf, 0, count * n⟩)
    (fun i _ => red.perform ⟨.tempBuf, i * count⟩ ⟨.tempRecvbuf, i * count⟩ count) n)

/-- `ReduceScatter` up to the head of its loop after `k` rounds. -/
def reduceScatterUpTo (k : ℕ) : Script ℕ Buf α :=
  Script.locals (List.range n) (fun r m => m.copy .tempRecvbuf 0 (sendBuf r) 0 (count * n)) ++
    reduceScatterRounds n count dtype red ((masks n).take k)

/-- `ReduceScatter` from the head of its loop on. -/
def reduceScatterFrom (k : ℕ) : Script ℕ Buf α :=
  reduceScatterRounds n count dtype red ((masks n).drop k) ++
    Script.locals (List.range n) fun r m =>
      m.copy (recvBuf r) 0 .tempRecvbuf (r * count) count

theorem reduceScatterScript_eq (k : ℕ) :
    reduceScatterScript n count (getDataTypeSize dtype) sendBuf recvBuf red
      = reduceScatterUpTo n sendBuf count dtype red k
        ++ reduceScatterFrom n recvBuf count dtype red k := by
  rw [reduceScatterUpTo, reduceScatterFrom, List.append_assoc, ← List.append_assoc
    (reduceScatterRounds ..), reduceScatterRounds, reduceScatterRounds, ← List.flatMap_append,
    List.take_append_drop]
  rfl

end Scripts

section Performs

variable {n r : ℕ} (hr : r < n) (sendBuf recvBuf : ℕ → Buf) (count : ℕ) (dtype : DataType)
  (red : Reducer α)
include hr

theorem performs_allReduceRounds {L : List ℕ} (hL : ∀ mask ∈ L, 0 < mask) :
    Performs [] (forEach L (allReduceRound n r (neighborComm n r) (recvBuf r) count dtype red))
      (Script.project r (allReduceRounds n recvBuf count dtype red L)) := by
  refine performs_doubling hr hL (fun r => ⟨recvBuf r, 0, count⟩)
    (fun _ => ⟨.tempBuffer, 0, count⟩) _ _ 1 ?_
  exact .doAct _

theorem performs_reduceScatterRounds {L : List ℕ} (hL : ∀ mask ∈ L, 0 < mask) :
    Performs [] (forEach L (reduceScatterRound n r (neighborComm n r) count dtype red))
      (Script.project r (reduceScatterRounds n count dtype red L)) := by
  refine performs_doubling hr hL (fun _ => ⟨.tempRecvbuf, 0, count * n⟩)
    (fun _ => ⟨.tempBuf, 0, count * n⟩) _ _ n ?_
  exact Performs.forEach fun i _ => .doAct _

theorem performs_reduceScatterLoop (k : ℕ) :
    Performs [] (reduceScatterLoop n r (neighborComm n r) (recvBuf r) count dtype red k)
      (Script.project r (reduceScatterFrom n recvBuf count dtype red k)) := by
  rw [reduceScatterFrom, Script.project_append, Script.project_locals_range hr]
  refine Performs.andThen ?_ (.doAct _)
  exact performs_reduceScatterRounds hr count dtype red
    fun _ hmask => mask_pos (List.mem_of_mem_drop hmask)

end Performs

/-! ### The heads of the loops are reached -/

section Reached

variable {n : ℕ} (hn : 1 ≤ n) (k : ℕ) (sendBuf recvBuf : ℕ → ℕ) (count : ℕ) (dtype : DataType)
  (red : Reducer α) (m : ℕ → RankMem α)
include hn

/-- In some run all ranks are at the head of the loop of `AllReduce` after `k` rounds. -/
theorem exists_allReduce_head :
    ∃ s, Fifo.step.Reaches
        (Fifo.init (callTeam n (.allReduce sendBuf recvBuf count dtype red)) m) s
      ∧ ∀ r < n, (s.node r).pending = []
        ∧ (s.node r).next
          = allReduceLoop n r (neighborComm n r) (.user (recvBuf r)) count dtype red k := by
  let first : ℕ → RankProg α := fun r =>
    act (fun m => m.copy (.user (recvBuf r)) 0 (.user (sendBuf r)) 0 count) <|
    forEach ((masks n).take k)
      (allReduceRound n r (neighborComm n r) (.user (recvBuf r)) count dtype red)
  have hsplit : (fun r => call n r (neighborComm n r)
      (.allReduce sendBuf recvBuf count dtype red)) = fun r => (first r).andThen
        (allReduceLoop n r (neighborComm n r) (.user (recvBuf r)) count dtype red k) := by
    funext r
    exact congrArg (act _) (forEach_masks n k
      (allReduceRound n r (neighborComm n r) (.user (recvBuf r)) count dtype red))
  have hschedule := schedule_call hn (c := .allReduce sendBuf recvBuf count dtype red) trivial
  rw [hsplit, callScript, allReduceScript_eq n _ _ count dtype red k] at hschedule
  rw [callTeam, hsplit]
  apply hschedule.exists_before
  intro r hr
  rw [allReduceUpTo, Script.project_append, Script.project_locals_range hr,
    List.singleton_append]
  exact .act (performs_allReduceRounds hr (userBuf recvBuf) count dtype red
    fun _ hmask => mask_pos (List.mem_of_mem_take hmask))

/-- In some run all ranks are at the head of the loop of `ReduceScatter` after `k`
rounds. -/
theorem exists_reduceScatter_head :
    ∃ s, Fifo.step.Reaches
        (Fifo.init (callTeam n (.reduceScatter sendBuf recvBuf count dtype red)) m) s
      ∧ ∀ r < n, (s.node r).pending = []
        ∧ (s.node r).next
          = reduceScatterLoop n r (neighborComm n r) (.user (recvBuf r)) count dtype red k := by
  let first : ℕ → RankProg α := fun r =>
    act (fun m => m.copy .tempRecvbuf 0 (.user (sendBuf r)) 0 (count * n)) <|
    forEach ((masks n).take k) (reduceScatterRound n r (neighborComm n r) count dtype red)
  have hsplit : (fun r => call n r (neighborComm n r)
      (.reduceScatter sendBuf recvBuf count dtype red)) = fun r => (first r).andThen
        (reduceScatterLoop n r (neighborComm n r) (.user (recvBuf r)) count dtype red k) := by
    funext r
    have hloop := forEach_masks n k (reduceScatterRound n r (neighborComm n r) count dtype red)
    have hassoc := congrArg (andThen · (doAct fun m =>
      m.copy (.user (recvBuf r)) 0 .tempRecvbuf (r * count) count)) hloop
    simp only [andThen_assoc] at hassoc
    exact congrArg (act _) hassoc
  have hschedule := schedule_call hn (c := .reduceScatter sendBuf recvBuf count dtype red) trivial
  rw [hsplit, callScript, reduceScatterScript_eq n _ _ count dtype red k] at hschedule
  rw [callTeam, hsplit]
  apply hschedule.exists_before
  intro r hr
  rw [reduceScatterUpTo, Script.project_append, Script.project_locals_range hr,
    List.singleton_append]
  exact .act (performs_reduceScatterRounds hr count dtype red
    fun _ hmask => mask_pos (List.mem_of_mem_take hmask))

end Reached

/-! ### The buffers at the heads of the loops -/

section Heads

variable {n k : ℕ} (hn : 1 ≤ n) (hk : ∀ j < k, 2 ^ j < n) {sendBuf recvBuf : ℕ → ℕ} {count : ℕ}
  {dtype : DataType} {red : Reducer α} {m : ℕ → RankMem α} {s : Fifo ℕ Buf α} {r : ℕ}
  (hr : r < n) (hjoined : (s.node r).pending = [])
include hn hk hr hjoined

theorem allReduce_at_head
    (hs : Fifo.step.Reaches
      (Fifo.init (callTeam n (.allReduce sendBuf recvBuf count dtype red)) m) s)
    (hnext : (s.node r).next = allReduceLoop n r (neighborComm n r) (.user (recvBuf r)) count
      dtype red k) {i : ℕ} (hi : i < count) :
    (s.node r).mem (.user (recvBuf r)) i
      = doublingFold red.combine n (fun q => m q (.user (sendBuf q)) i) k r := by
  have hschedule := schedule_call hn (c := .allReduce sendBuf recvBuf count dtype red) trivial
  have hperforms := performs_allReduceRounds hr (userBuf recvBuf) count dtype red
    (fun _ hmask => mask_pos (List.mem_of_mem_drop hmask) : ∀ mask ∈ (masks n).drop k, 0 < mask)
  rw [hschedule.mem_of_performs hs (allReduceScript_eq n _ _ count dtype red k) hjoined
    (hnext ▸ hperforms), allReduceUpTo, masks_take hk]
  exact exec_allReduceRounds (userBuf sendBuf) (userBuf recvBuf) red m (fun _ => Buf.noConfusion)
    k hr hi

theorem reduceScatter_at_head
    (hs : Fifo.step.Reaches
      (Fifo.init (callTeam n (.reduceScatter sendBuf recvBuf count dtype red)) m) s)
    (hnext : (s.node r).next = reduceScatterLoop n r (neighborComm n r) (.user (recvBuf r)) count
      dtype red k) {i : ℕ} (hi : i < n * count) :
    (s.node r).mem .tempRecvbuf i
      = doublingFold red.combine n (fun q => m q (.user (sendBuf q)) i) k r := by
  have hschedule := schedule_call hn (c := .reduceScatter sendBuf recvBuf count dtype red) trivial
  have hperforms := performs_reduceScatterLoop hr (userBuf recvBuf) count dtype red k
  rw [hschedule.mem_of_performs hs (reduceScatterScript_eq n _ _ count dtype red k) hjoined
    (hnext ▸ hperforms), reduceScatterUpTo, masks_take hk]
  exact exec_reduceScatterRounds (userBuf sendBuf) red m k hr hi

end Heads

/-! ### Who has been combined -/

/-- `S` has `r`, and it is within the aligned block of `2 ^ k` ranks around `r`.  It has all
ranks of the block if `r` is the first of them or the whole block is below `n`. -/
structure WithinBlock (n k r : ℕ) (S : Finset ℕ) : Prop where
  self_mem : r ∈ S
  block : ∀ q ∈ S, q < n ∧ q / 2 ^ k = r / 2 ^ k
  whole : 2 ^ k ∣ r ∨ (r / 2 ^ k + 1) * 2 ^ k ≤ n → ∀ q < n, q / 2 ^ k = r / 2 ^ k → q ∈ S

theorem withinBlock_contributors {n k r : ℕ} (hr : r < n) :
    WithinBlock n k r (contributors n k r) where
  self_mem := self_mem_contributors n k r
  block _ hq := div_eq_of_mem_contributors hr hq
  whole := by
    rintro (hfirst | hblock) q hq hdiv
    · exact mem_contributors_of_dvd hfirst hq hdiv
    · exact mem_contributors_of_block_le hblock hdiv

/-- The values of recursive doubling on several elements come from one set of ranks. -/
theorem exists_withinBlock {f : α → α → α} {n k r : ℕ} (hr : r < n) {x : ℕ → ℕ → α}
    {v : ℕ → α} {size : ℕ} (h : ∀ i < size, v i = doublingFold f n (x i) k r) :
    ∃ S, WithinBlock n k r S ∧ ∀ i < size, Combination f (x i) S (v i) := by
  refine ⟨contributors n k r, withinBlock_contributors hr, ?_⟩
  intro i hi
  rw [h i hi]
  exact combination_doublingFold f (x i) k hr

/-- **Recursive doubling never combines a contribution twice**: in every run, a rank that
has done the rounds with the masks below `2 ^ k` has combined the inputs of a set of ranks
of its block, each of them once. -/
theorem doubling_rounds {n k : ℕ} (hn : 1 ≤ n) (hk : ∀ j < k, 2 ^ j < n)
    (sendBuf recvBuf : ℕ → ℕ) (count : ℕ) (dtype : DataType) (red : Reducer α)
    (m : ℕ → RankMem α) (s : Fifo ℕ Buf α) {r : ℕ} (hr : r < n)
    (hjoined : (s.node r).pending = []) :
    (Fifo.step.Reaches
        (Fifo.init (callTeam n (.allReduce sendBuf recvBuf count dtype red)) m) s →
      (s.node r).next = allReduceLoop n r (neighborComm n r) (.user (recvBuf r)) count dtype
        red k →
      ∃ S, WithinBlock n k r S ∧ ∀ i < count,
        Combination red.combine (fun q => m q (.user (sendBuf q)) i) S
          ((s.node r).mem (.user (recvBuf r)) i))
    ∧ (Fifo.step.Reaches
        (Fifo.init (callTeam n (.reduceScatter sendBuf recvBuf count dtype red)) m) s →
      (s.node r).next = reduceScatterLoop n r (neighborComm n r) (.user (recvBuf r)) count dtype
        red k →
      ∃ S, WithinBlock n k r S ∧ ∀ i < n * count,
        Combination red.combine (fun q => m q (.user (sendBuf q)) i) S
          ((s.node r).mem .tempRecvbuf i)) := by
  constructor
  · intro hs hnext
    exact exists_withinBlock hr fun i hi => allReduce_at_head hn hk hr hjoined hs hnext hi
  · intro hs hnext
    exact exists_withinBlock hr fun i hi => reduceScatter_at_head hn hk hr hjoined hs hnext hi

/-- Five ranks after the second of three rounds: rank 3 has exchanged twice, and has combined
the inputs of the ranks 0 to 3. -/
theorem doubling_rounds_five :
    (∃ s, Fifo.step.Reaches
        (Fifo.init (callTeam 5 (.allReduce id id 2 .int32 (.performReduce .sum 5)))
          fun q _ i => BitVec.ofNat 32 (10 * q + i)) s
      ∧ ∀ i < 2, Combination (Reducer.performReduce .sum 5).combine
          (fun q => BitVec.ofNat 32 (10 * q + i)) (Finset.range 4)
          ((s.node 3).mem (.user 3) i))
    ∧ ∃ s, Fifo.step.Reaches
        (Fifo.init (callTeam 5 (.reduceScatter id id 1 .int32 (.performReduce .sum 5)))
          fun q _ i => BitVec.ofNat 32 (10 * q + i)) s
      ∧ ∀ i < 5, Combination (Reducer.performReduce .sum 5).combine
          (fun q => BitVec.ofNat 32 (10 * q + i)) (Finset.range 4)
          ((s.node 3).mem .tempRecvbuf i) := by
  let m : ℕ → RankMem (BitVec 32) := fun q _ i => BitVec.ofNat 32 (10 * q + i)
  have hblock : ∀ S, WithinBlock 5 2 3 S → S = Finset.range 4 := by
    intro S hS
    ext q
    rw [Finset.mem_range]
    refine ⟨fun hq => ?_, fun hq => hS.whole (.inr (by decide)) q (by omega) (by omega)⟩
    obtain ⟨-, hdiv⟩ := hS.block q hq
    omega
  constructor
  · obtain ⟨s, hs, hhead⟩ := exists_allReduce_head (n := 5) (by decide) 2 id id 2 .int32
      (.performReduce .sum 5) m
    obtain ⟨hjoined, hnext⟩ := hhead 3 (by decide)
    obtain ⟨S, hS, hcombination⟩ := (doubling_rounds (by decide) (by decide) id id 2 .int32
      (.performReduce .sum 5) m s (by decide) hjoined).1 hs hnext
    exact ⟨s, hs, hblock S hS ▸ hcombination⟩
  · obtain ⟨s, hs, hhead⟩ := exists_reduceScatter_head (n := 5) (by decide) 2 id id 1 .int32
      (.performReduce .sum 5) m
    obtain ⟨hjoined, hnext⟩ := hhead 3 (by decide)
    obtain ⟨S, hS, hcombination⟩ := (doubling_rounds (by decide) (by decide) id id 1 .int32
      (.performReduce .sum 5) m s (by decide) hjoined).2 hs hnext
    exact ⟨s, hs, hblock S hS ▸ hcombination⟩

end MiniCcl.TopologyFullMesh
