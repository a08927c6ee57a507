/-
MiniCcl/Utils.lean

The reductions of `utils.cpp`.

`ReduceData` combines one vector into another element by element;
`PerformReduce` calls it and, for `AVG`, divides every element of the result by
`world_size` in a second loop.  Both are loops on memory.  What the schedules
need to know about them is that, between different buffers, they act on each
element by itself: `performReduce_apply`.

A `Reducer` is any in-place reduction with that property, together with the
function it applies to an element.  The collectives are generic in it, so that
results about an arbitrary combine function and results about `PerformReduce`
are instances of the same statements.
-/
import Mathlib.Data.BitVec
import MiniCcl.Types

namespace MiniCcl

variable {α : Type*}

/-! ### Element loops -/

/-- `for (i = 0; i < count; i++) recv[i] = f(send[i], recv[i]);` -/
def zipCells (f : α → α → α) (send recv : Ptr) : ℕ → RankMem α → RankMem α
  | 0, m => m
  | count + 1, m =>
      let m' := zipCells f send recv count m
      m'.write ⟨recv.buf, recv.off + count, 1⟩
        [f (m' send.buf (send.off + count)) (m' recv.buf (recv.off + count))]

theorem write_one_apply (m : RankMem α) (p : Buf) (k : ℕ) (x : α) (b : Buf) (i : ℕ) :
    m.write ⟨p, k, 1⟩ [x] b i = if b = p ∧ i = k then x else m b i := by
  by_cases h : b = p ∧ i = k
  · obtain ⟨rfl, rfl⟩ := h
    rw [Mem.write_of_has ⟨rfl, le_rfl, Nat.lt_succ_self i⟩]
    simp
  · rw [if_neg h, Mem.write_of_not_has]
    rintro ⟨hb, hlo, hhi⟩
    exact h ⟨hb, by simp only at hlo hhi; omega⟩

/-- The loop touches each element once, and reads it as it was: either the two
buffers are different or each element is combined with itself. -/
theorem zipCells_apply (f : α → α → α) {send recv : Ptr}
    (h : send.buf ≠ recv.buf ∨ send = recv) (count : ℕ) (m : RankMem α) (b : Buf) (i : ℕ) :
    zipCells f send recv count m b i
      = if b = recv.buf ∧ recv.off ≤ i ∧ i < recv.off + count
        then f (m send.buf (send.off + (i - recv.off))) (m b i) else m b i := by
  induction count generalizing b i with
  | zero => simp [zipCells]
  | succ count ih =>
      simp only [zipCells, write_one_apply]
      by_cases hlast : b = recv.buf ∧ i = recv.off + count
      · obtain ⟨rfl, rfl⟩ := hlast
        have hsend : zipCells f send recv count m send.buf (send.off + count)
            = m send.buf (send.off + count) := by
          rw [ih, if_neg]
          rintro ⟨hb, -, hhi⟩
          rcases h with h | rfl
          · exact h hb
          · omega
        have hrecv : zipCells f send recv count m recv.buf (recv.off + count)
            = m recv.buf (recv.off + count) := by
          rw [ih, if_neg]
          rintro ⟨-, -, hhi⟩
          omega
        simp [hsend, hrecv]
      · rw [if_neg hlast, ih]
        have hiff : (b = recv.buf ∧ recv.off ≤ i ∧ i < recv.off + count)
            ↔ (b = recv.buf ∧ recv.off ≤ i ∧ i < recv.off + (count + 1)) := by
          constructor
          · rintro ⟨hb, hlo, hhi⟩
            exact ⟨hb, hlo, by omega⟩
          · rintro ⟨hb, hlo, hhi⟩
            exact ⟨hb, hlo, by have : i ≠ recv.off + count := fun hi => hlast ⟨hb, hi⟩; omega⟩
        simp only [hiff]

/-! ### ReduceData and PerformReduce on integers -/

variable {w : ℕ}

/-- One iteration of `ReduceData<intN_t>`: the new value of `recv_buf[i]`. -/
def reduceElem (op : ReduceOp) (send recv : BitVec w) : BitVec w :=
  match op with
  | .sum => recv + send
  | .max => if recv.slt send then send else recv
  | .min => if send.slt recv then send else recv
  -- SUM here, the division by world_size follows
  | .avg => recv + send

/-- `Utils::ReduceData` -/
def reduceData (op : ReduceOp) (send recv : Ptr) (count : ℕ) (m : RankMem (BitVec w)) :
    RankMem (BitVec w) :=
  zipCells (reduceElem op) send recv count m

/-- `for (i = 0; i < count; i++) data[i] /= world_size;` -/
def divideData (worldSize : ℕ) (data : Ptr) (count : ℕ) (m : RankMem (BitVec w)) :
    RankMem (BitVec w) :=
  zipCells (fun _ x => x.sdiv (BitVec.ofNat w worldSize)) data data count m

/-- `Utils::PerformReduce` for the integer types. -/
def performReduce (op : ReduceOp) (worldSize : ℕ) (send recv : Ptr) (count : ℕ)
    (m : RankMem (BitVec w)) : RankMem (BitVec w) :=
  let m' := reduceData op send recv count m
  if op = .avg then divideData worldSize recv count m' else m'

/-- What one call of `PerformReduce` does to one element. -/
def combine (op : ReduceOp) (worldSize : ℕ) (send recv : BitVec w) : BitVec w :=
  if op = .avg then (reduceElem op send recv).sdiv (BitVec.ofNat w worldSize)
  else reduceElem op send recv

theorem performReduce_apply (op : ReduceOp) (worldSize : ℕ) {send recv : Ptr}
    (h : send.buf ≠ recv.buf) (count : ℕ) (m : RankMem (BitVec w)) (b : Buf) (i : ℕ) :
    performReduce op worldSize send recv count m b i
      = if b = recv.buf ∧ recv.off ≤ i ∧ i < recv.off + count
        then combine op worldSize (m send.buf (send.off + (i - recv.off))) (m b i)
        else m b i := by
  by_cases hop : op = .avg
  · simp only [performReduce, if_pos hop, divideData, zipCells_apply _ (.inr rfl),
      reduceData, zipCells_apply _ (.inl h), combine]
    split_ifs <;> rfl
  · simp only [performReduce, if_neg hop, reduceData, zipCells_apply _ (.inl h), combine]

/-! ### Reducers -/

/-- An in-place reduction of one vector into another that combines, in different
buffers, each element by itself. -/
structure Reducer (α : Type*) where
  combine : α → α → α
  perform : Ptr → Ptr → ℕ → RankMem α → RankMem α
  perform_apply : ∀ {send recv : Ptr}, send.buf ≠ recv.buf → ∀ count m b i,
    perform send recv count m b i
      = if b = recv.buf ∧ recv.off ≤ i ∧ i < recv.off + count
        then combine (m send.buf (send.off + (i - recv.off))) (m b i) else m b i

/-- A vector is received into `tmp` and then reduced into `own`. -/
theorem Reducer.perform_received (red : Reducer α) (m m' : RankMem α) {tmp own : Buf}
    (hne : tmp ≠ own) (src : Buf) {count i : ℕ} (hi : i < count) :
    red.perform ⟨tmp, 0⟩ ⟨own, 0⟩ count (m.write ⟨tmp, 0, count⟩ (m'.read ⟨src, 0, count⟩)) own i
      = red.combine (m' src i) (m own i) := by
  have hperform := @Reducer.perform_apply α red ⟨tmp, 0⟩ ⟨own, 0⟩ hne
  have hin : own = own ∧ 0 ≤ i ∧ i < 0 + count := ⟨rfl, Nat.zero_le i, by omega⟩
  have htmp : m.write ⟨tmp, 0, count⟩ (m'.read ⟨src, 0, count⟩) tmp (0 + (i - 0)) = m' src i := by
    rw [Nat.zero_add, Nat.sub_zero, Mem.write_start _ _ hi, if_pos rfl, Nat.zero_add]
  have hown : m.write ⟨tmp, 0, count⟩ (m'.read ⟨src, 0, count⟩) own i = m own i := by
    rw [Mem.write_start _ _ hi, if_neg hne.symm]
  rw [hperform, if_pos hin]
  exact congr (congrArg red.combine htmp) hown

/-- A reduction between two buffers accesses the two vectors and nothing else. -/
theorem Reducer.staysIn_perform (red : Reducer α) {send recv : Ptr} (hne : send.buf ≠ recv.buf)
    {count : ℕ} {S : Buf → ℕ → Prop} (hsend : ∀ k < count, S send.buf (send.off + k))
    (hrecv : ∀ k < count, S recv.buf (recv.off + k)) :
    Mem.StaysIn S (red.perform send recv count) := by
  constructor
  · intro m b i hout
    rw [red.perform_apply hne, if_neg]
    rintro ⟨rfl, hlo, hhi⟩
    apply hout
    rw [← Nat.add_sub_cancel' hlo]
    exact hrecv _ (by omega)
  · intro m m' hsame b i hin
    rw [red.perform_apply hne, red.perform_apply hne, hsame b i hin]
    split_ifs with hcell
    · rw [hsame _ _ (hsend (i - recv.off) (by omega))]
    · rfl

/-- The loop `recv[i] = f(send[i], recv[i])` for an arbitrary `f`. -/
def Reducer.elementwise (f : α → α → α) : Reducer α where
  combine := f
  perform := zipCells f
  perform_apply h count m b i := zipCells_apply f (.inl h) count m b i

/-- `PerformReduce` with a given operation in a world of a given size. -/
def Reducer.performReduce (op : ReduceOp) (worldSize : ℕ) : Reducer (BitVec w) where
  combine := MiniCcl.combine op worldSize
  perform := MiniCcl.performReduce op worldSize
  perform_apply := performReduce_apply op worldSize

end MiniCcl
