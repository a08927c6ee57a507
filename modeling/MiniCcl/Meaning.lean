/-
MiniCcl/Meaning.lean

What the calls of a communicator are for.

A call of all ranks fills, on each rank, the beginning of at most one buffer of the
caller (`Call.delivery`) and leaves everything else alone (`Call.meaning`).  Nothing here
mentions messages, topologies or the order of steps; a sequence of calls means the
composition of what its calls mean.  A reduction is meant to be taken over all ranks, so
its meaning is a fold in the order of the ranks.

`Call.WellPosed` collects when a topology promises that: the buffers of one rank are
different where the code reads one while it fills the other, reductions do not depend on
the order, and, for the two calls that need it, the world size or the count is one that
the algorithm can handle.
-/
import MiniCcl.Combination
import MiniCcl.Topology

namespace MiniCcl

variable {α : Type*}

/-- The buffers that the callers of all ranks own. -/
abbrev UserMem (α : Type*) := ℕ → ℕ → ℕ → α

/-- The callers' part of the memories. -/
def userMem (m : ℕ → RankMem α) : UserMem α := fun r k => m r (.user k)

/-- The first `len` elements of a buffer get new values. -/
structure Delivery (α : Type*) where
  buf : ℕ
  len : ℕ
  value : ℕ → α

/-- The buffers of one rank after a delivery. -/
def Delivery.apply (d : Delivery α) (M : ℕ → ℕ → α) : ℕ → ℕ → α := fun k i =>
  if k = d.buf ∧ i < d.len then d.value i else M k i

/-- What a collective call is to deliver on rank `r` of `n`. -/
def Call.delivery (n : ℕ) (M : UserMem α) (r : ℕ) : Call α → Option (Delivery α)
  | .broadcast buffer count _ root => some ⟨buffer r, count, fun i => M root (buffer root) i⟩
  | .gather sendBuf recvBuf count _ root =>
      if r = root then
        some ⟨recvBuf r, n * count, fun i => M (i / count) (sendBuf (i / count)) (i % count)⟩
      else none
  | .scatter sendBuf recvBuf count _ root =>
      some ⟨recvBuf r, count, fun i => M root (sendBuf root) (r * count + i)⟩
  | .reduce sendBuf recvBuf count _ red root =>
      if r = root then
        some ⟨recvBuf r, count,
          fun i => chainFold red.combine (fun q => M q (sendBuf q) i) (n - 1)⟩
      else none
  | .allGather sendBuf recvBuf count _ =>
      some ⟨recvBuf r, n * count, fun i => M (i / count) (sendBuf (i / count)) (i % count)⟩
  | .reduceScatter sendBuf recvBuf count _ red =>
      some ⟨recvBuf r, count,
        fun i => chainFold red.combine (fun q => M q (sendBuf q) (r * count + i)) (n - 1)⟩
  | .allReduce sendBuf recvBuf count _ red =>
      some ⟨recvBuf r, count,
        fun i => chainFold red.combine (fun q => M q (sendBuf q) i) (n - 1)⟩
  | .allToAll sendBuf recvBuf count _ =>
      some ⟨recvBuf r, n * count,
        fun i => M (i / count) (sendBuf (i / count)) (r * count + i % count)⟩
  | .barrier => none

/-- The callers' buffers after a call. -/
def Call.meaning (n : ℕ) (c : Call α) (M : UserMem α) : UserMem α := fun r =>
  if r < n then (c.delivery n M r).elim (M r) fun d => d.apply (M r) else M r

/-! ### When a topology keeps the promise -/

/-- Where a rank fills one buffer while it still reads the other, the two differ. -/
def Call.Separate (topology : TopologyType) (n : ℕ) : Call α → Prop
  | .scatter sendBuf recvBuf _ _ root => sendBuf root ≠ recvBuf root
  | .allGather sendBuf recvBuf _ _ => topology = .fullMesh → ∀ r < n, sendBuf r ≠ recvBuf r
  | .allToAll sendBuf recvBuf _ _ => ∀ r < n, sendBuf r ≠ recvBuf r
  | _ => True

/-- A reduction does not depend on the order, and it reaches every rank: recursive
doubling needs a power of two for that. -/
def Call.Reduces (topology : TopologyType) (n : ℕ) : Call α → Prop
  | .reduce _ _ _ _ red _ => Orderless red.combine
  | .reduceScatter _ _ _ _ red => Orderless red.combine ∧ (topology = .fullMesh → ∃ k, n = 2 ^ k)
  | .allReduce _ _ _ _ red => Orderless red.combine ∧ (topology = .fullMesh → ∃ k, n = 2 ^ k)
  | _ => True

/-- The chunks of `AllReduce` on the ring stay inside the buffer. -/
def Call.Inside (topology : TopologyType) (n : ℕ) : Call α → Prop
  | .allReduce _ _ count _ _ =>
      topology = .ring → 3 ≤ n → (n - 1) * ((count + n - 1) / n) ≤ count
  | _ => True

/-- A call that the topology carries out as it is meant. -/
structure Call.WellPosed (topology : TopologyType) (n : ℕ) (c : Call α) : Prop where
  valid : c.Valid n
  separate : c.Separate topology n
  reduces : c.Reduces topology n
  inside : c.Inside topology n

/-! ### The integer reductions -/

/-- A reduction leaves alone what is outside of the reduced slice. -/
theorem Reducer.perform_of_not_has (red : Reducer α) {send recv : Ptr}
    (hne : send.buf ≠ recv.buf) {count i : ℕ} {b : Buf}
    (h : ¬ (⟨recv.buf, recv.off, count⟩ : Slice Buf).Has b i) (m : RankMem α) :
    red.perform send recv count m b i = m b i := by
  rw [red.perform_apply hne]
  exact if_neg h

/-- `SUM`, `MAX` and `MIN` do not depend on the order. -/
theorem orderless_performReduce {w : ℕ} {op : ReduceOp} (hop : op ≠ .avg) (worldSize : ℕ) :
    Orderless (Reducer.performReduce (w := w) op worldSize).combine := by
  rw [combine_performReduce hop]
  cases op with
  | sum => exact ⟨fun a b c => (BitVec.add_assoc c b a).symm, fun a b => BitVec.add_comm b a⟩
  | max =>
      have htoInt (a b : BitVec w) : (reduceElem .max a b).toInt = max a.toInt b.toInt := by
        by_cases h : b.slt a = true
        · rw [reduceElem, if_pos h, max_eq_left (BitVec.slt_iff_toInt_lt.mp h).le]
        · rw [reduceElem, if_neg h,
            max_eq_right (not_lt.mp (mt BitVec.slt_iff_toInt_lt.mpr h))]
      refine ⟨fun a b c => BitVec.toInt_inj.mp ?_, fun a b => BitVec.toInt_inj.mp ?_⟩
      · simp only [htoInt, max_assoc]
      · simp only [htoInt, max_comm]
  | min =>
      have htoInt (a b : BitVec w) : (reduceElem .min a b).toInt = min a.toInt b.toInt := by
        by_cases h : a.slt b = true
        · rw [reduceElem, if_pos h, min_eq_left (BitVec.slt_iff_toInt_lt.mp h).le]
        · rw [reduceElem, if_neg h,
            min_eq_right (not_lt.mp (mt BitVec.slt_iff_toInt_lt.mpr h))]
      refine ⟨fun a b c => BitVec.toInt_inj.mp ?_, fun a b => BitVec.toInt_inj.mp ?_⟩
      · simp only [htoInt, min_assoc]
      · simp only [htoInt, min_comm]
  | avg => exact absurd rfl hop

/-! ### Deliveries -/

namespace Call

variable {n : ℕ} {c : Call α} {M : UserMem α} {r : ℕ}

theorem meaning_of_le (hr : n ≤ r) : c.meaning n M r = M r := if_neg (Nat.not_lt.mpr hr)

theorem meaning_of_none (h : c.delivery n M r = none) : c.meaning n M r = M r := by
  by_cases hr : r < n
  · rw [meaning, if_pos hr, h]
    rfl
  · exact if_neg hr

theorem meaning_of_some (hr : r < n) {d : Delivery α} (h : c.delivery n M r = some d) :
    c.meaning n M r = d.apply (M r) := by
  rw [meaning, if_pos hr, h]
  rfl

/-- What has been delivered is there. -/
theorem meaning_buf (hr : r < n) {d : Delivery α} (h : c.delivery n M r = some d) {i : ℕ}
    (hi : i < d.len) : c.meaning n M r d.buf i = d.value i := by
  rw [meaning_of_some hr h]
  exact if_pos ⟨rfl, hi⟩

/-- To know what a rank holds after a call, look at the delivered part and at the rest. -/
theorem eq_meaning_of_some {N : ℕ → ℕ → α} (hr : r < n) {d : Delivery α}
    (h : c.delivery n M r = some d) (hvalue : ∀ i < d.len, N d.buf i = d.value i)
    (hrest : ∀ k i, ¬ (k = d.buf ∧ i < d.len) → N k i = M r k i) : N = c.meaning n M r := by
  rw [meaning_of_some hr h]
  funext k i
  by_cases hki : k = d.buf ∧ i < d.len
  · obtain ⟨rfl, hi⟩ := hki
    rw [Delivery.apply, if_pos ⟨rfl, hi⟩]
    exact hvalue i hi
  · rw [Delivery.apply, if_neg hki]
    exact hrest k i hki

end Call

end MiniCcl
