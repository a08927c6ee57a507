/-
MiniCcl/Memory.lean

The memory of one process: named blocks of cells, and slices of them.

A message is the list of cells of a slice.  The lemmas say how reading a slice,
writing a slice and copying between slices interact; two transfers that are
outstanding at the same time commute as soon as their slices are disjoint.
Block names `β` and cells `α` are arbitrary.
-/
import Mathlib.Data.List.Range
import Mathlib.Data.Set.Function
import Mathlib.Order.Interval.Set.Defs
import Mathlib.Tactic.TypeStar

namespace MiniCcl

variable {β α : Type*}

/-- The cells `off, …, off + len - 1` of the block `buf`. -/
structure Slice (β : Type*) where
  buf : β
  off : ℕ
  len : ℕ
  deriving DecidableEq, Repr

/-- The contents of every block of a process. -/
abbrev Mem (β α : Type*) := β → ℕ → α

namespace Slice

/-- Cell `i` of block `b` belongs to the slice. -/
def Has (s : Slice β) (b : β) (i : ℕ) : Prop :=
  b = s.buf ∧ s.off ≤ i ∧ i < s.off + s.len

instance [DecidableEq β] (s : Slice β) (b : β) (i : ℕ) : Decidable (s.Has b i) :=
  inferInstanceAs (Decidable (_ ∧ _ ∧ _))

/-- The two slices share no cell, and lie in different blocks or one after the
other in the same block. -/
def Disjoint (s t : Slice β) : Prop :=
  s.buf ≠ t.buf ∨ s.off + s.len ≤ t.off ∨ t.off + t.len ≤ s.off

instance [DecidableEq β] (s t : Slice β) : Decidable (s.Disjoint t) :=
  inferInstanceAs (Decidable (_ ∨ _ ∨ _))

theorem Disjoint.symm {s t : Slice β} (h : s.Disjoint t) : t.Disjoint s := by
  rcases h with h | h | h
  · exact .inl (Ne.symm h)
  · exact .inr (.inr h)
  · exact .inr (.inl h)

theorem disjoint_of_buf_ne {s t : Slice β} (h : s.buf ≠ t.buf) : s.Disjoint t :=
  .inl h

/-- Cell `j` of one of `n` blocks of length `len`. -/
theorem block_lt {k n len j : ℕ} (hk : k < n) (hj : j < len) : k * len + j < n * len := by
  calc k * len + j < k * len + len := Nat.add_lt_add_left hj _
    _ = (k + 1) * len := (Nat.succ_mul k len).symm
    _ ≤ n * len := Nat.mul_le_mul_right len hk

/-- Cell `j` of block `k'`, counted in slices of length `len`, is in slice `k` for
`k' = k` only. -/
theorem has_block {b b' : β} {k k' len j : ℕ} (hj : j < len) :
    (⟨b', k * len, len⟩ : Slice β).Has b (k' * len + j) ↔ b = b' ∧ k' = k := by
  constructor
  · rintro ⟨hb, hlo, hhi⟩
    simp only at hlo hhi
    have hle : k < k' + 1 := by
      apply Nat.lt_of_mul_lt_mul_right (a := len)
      rw [Nat.succ_mul]
      omega
    have hge : k' < k + 1 := by
      apply Nat.lt_of_mul_lt_mul_right (a := len)
      rw [Nat.succ_mul]
      omega
    exact ⟨hb, by omega⟩
  · rintro ⟨rfl, rfl⟩
    exact ⟨rfl, Nat.le_add_right _ _, Nat.add_lt_add_left hj _⟩

theorem Disjoint.not_has {s t : Slice β} (h : s.Disjoint t) {b : β} {i : ℕ}
    (hs : s.Has b i) : ¬ t.Has b i := by
  rintro ⟨hb, hlo, hhi⟩
  obtain ⟨hb', hlo', hhi'⟩ := hs
  rcases h with h | h | h
  · exact h (hb' ▸ hb)
  · omega
  · omega

/-- Different blocks do not overlap. -/
theorem disjoint_block {k k' : ℕ} (h : k ≠ k') (b b' : β) (len : ℕ) :
    (⟨b, k * len, len⟩ : Slice β).Disjoint ⟨b', k' * len, len⟩ := by
  have hbefore : ∀ {k k' : ℕ}, k < k' → k * len + len ≤ k' * len := by
    intro k k' hlt
    rw [← Nat.succ_mul]
    exact Nat.mul_le_mul_right len hlt
  rcases lt_or_gt_of_ne h with hlt | hgt
  · exact .inr (.inl (hbefore hlt))
  · exact .inr (.inr (hbefore hgt))

end Slice

namespace Mem

/-- The cells of a slice, in order. -/
def read (m : Mem β α) (s : Slice β) : List α :=
  (List.range s.len).map fun k => m s.buf (s.off + k)

@[simp] theorem length_read (m : Mem β α) (s : Slice β) :
    (m.read s).length = s.len := by
  simp [read]

theorem getElem?_read (m : Mem β α) (s : Slice β) {k : ℕ} (hk : k < s.len) :
    (m.read s)[k]? = some (m s.buf (s.off + k)) := by
  simp [read, hk]

/-- Two memories that agree on a slice read the same cells there. -/
theorem read_congr {m m' : Mem β α} {s : Slice β}
    (h : ∀ k < s.len, m s.buf (s.off + k) = m' s.buf (s.off + k)) :
    m.read s = m'.read s := by
  refine List.map_congr_left fun k hk => ?_
  exact h k (List.mem_range.mp hk)

/-- A slice is read part by part. -/
theorem read_append (m : Mem β α) (b : β) (o k l : ℕ) :
    m.read ⟨b, o, k + l⟩ = m.read ⟨b, o, k⟩ ++ m.read ⟨b, o + k, l⟩ := by
  simp only [read, List.range_add, List.map_append, List.map_map]
  congr 1
  refine List.map_congr_left fun i _ => ?_
  simp only [Function.comp_apply, Nat.add_assoc]

variable [DecidableEq β]

/-- Overwrite a slice with the list `xs`; cells beyond the end of `xs` keep
their contents. -/
def write (m : Mem β α) (s : Slice β) (xs : List α) : Mem β α := fun b i =>
  if s.Has b i then (xs[i - s.off]?).getD (m b i) else m b i

theorem write_of_not_has {m : Mem β α} {s : Slice β} {xs : List α} {b : β} {i : ℕ}
    (h : ¬ s.Has b i) : m.write s xs b i = m b i :=
  if_neg h

theorem write_of_has {m : Mem β α} {s : Slice β} {xs : List α} {b : β} {i : ℕ}
    (h : s.Has b i) : m.write s xs b i = (xs[i - s.off]?).getD (m b i) :=
  if_pos h

/-- Writing to one slice does not change what is read from a disjoint one. -/
theorem read_write_of_disjoint {m : Mem β α} {s t : Slice β} (h : s.Disjoint t)
    (xs : List α) : (m.write t xs).read s = m.read s := by
  refine read_congr fun k hk => ?_
  refine write_of_not_has (h.not_has ⟨rfl, ?_, ?_⟩)
  · exact Nat.le_add_right _ _
  · exact Nat.add_lt_add_left hk _

/-- What was written is read. -/
theorem read_write_self (m : Mem β α) (b : β) (o : ℕ) (xs : List α) :
    (m.write ⟨b, o, xs.length⟩ xs).read ⟨b, o, xs.length⟩ = xs := by
  refine List.ext_getElem? fun k => ?_
  rcases lt_or_ge k xs.length with hk | hk
  · rw [getElem?_read _ _ hk, write_of_has ⟨rfl, Nat.le_add_right o k, Nat.add_lt_add_left hk o⟩,
      Nat.add_sub_cancel_left, List.getElem?_eq_getElem hk, Option.getD_some]
  · rw [List.getElem?_eq_none (by rwa [length_read]), List.getElem?_eq_none hk]

/-- Writes to disjoint slices commute. -/
theorem write_comm_of_disjoint {m : Mem β α} {s t : Slice β} (h : s.Disjoint t)
    (xs ys : List α) : (m.write s xs).write t ys = (m.write t ys).write s xs := by
  funext b i
  by_cases hs : s.Has b i
  · have ht : ¬ t.Has b i := h.not_has hs
    rw [write_of_not_has ht, write_of_has hs, write_of_has hs, write_of_not_has ht]
  · rw [write_of_not_has hs]
    by_cases ht : t.Has b i
    · rw [write_of_has ht, write_of_has ht, write_of_not_has hs]
    · rw [write_of_not_has ht, write_of_not_has ht, write_of_not_has hs]

/-- Receiving into `d` what was read from a slice `s` of the same length. -/
theorem write_read_apply (m m' : Mem β α) {s d : Slice β} (hlen : s.len = d.len)
    (b : β) (i : ℕ) :
    m.write d (m'.read s) b i
      = if d.Has b i then m' s.buf (s.off + (i - d.off)) else m b i := by
  by_cases h : d.Has b i
  · have hk : i - d.off < s.len := by
      obtain ⟨-, hlo, hhi⟩ := h
      omega
    rw [write_of_has h, if_pos h, getElem?_read _ _ hk, Option.getD_some]
  · rw [write_of_not_has h, if_neg h]

/-- `memcpy`: the `len` cells of `src` at `srcOff` are copied to `dst` at
`dstOff`. -/
def copy (m : Mem β α) (dst : β) (dstOff : ℕ) (src : β) (srcOff len : ℕ) :
    Mem β α :=
  m.write ⟨dst, dstOff, len⟩ (m.read ⟨src, srcOff, len⟩)

theorem copy_apply (m : Mem β α) (dst : β) (dstOff : ℕ) (src : β)
    (srcOff len : ℕ) (b : β) (i : ℕ) :
    m.copy dst dstOff src srcOff len b i
      = if b = dst ∧ dstOff ≤ i ∧ i < dstOff + len
        then m src (srcOff + (i - dstOff)) else m b i := by
  have hlen : (⟨src, srcOff, len⟩ : Slice β).len
      = (⟨dst, dstOff, len⟩ : Slice β).len := rfl
  exact write_read_apply m m hlen b i

/-! ### Blocks of equal length -/

/-- Receiving block `k`. -/
theorem write_block (m : Mem β α) (m' : Mem β α) {dst src b : β} {o k k' len j : ℕ}
    (hj : j < len) :
    m.write ⟨dst, k * len, len⟩ (m'.read ⟨src, o, len⟩) b (k' * len + j)
      = if b = dst ∧ k' = k then m' src (o + j) else m b (k' * len + j) := by
  have hlen : (⟨src, o, len⟩ : Slice β).len = (⟨dst, k * len, len⟩ : Slice β).len := rfl
  rw [write_read_apply _ _ hlen]
  simp only [Slice.has_block hj]
  by_cases h : b = dst ∧ k' = k
  · rw [if_pos h, if_pos h, h.2, Nat.add_sub_cancel_left]
  · rw [if_neg h, if_neg h]

/-- Receiving a slice at the start of a block. -/
theorem write_start (m : Mem β α) (m' : Mem β α) {dst src b : β} {o len j : ℕ} (hj : j < len) :
    m.write ⟨dst, 0, len⟩ (m'.read ⟨src, o, len⟩) b j
      = if b = dst then m' src (o + j) else m b j := by
  have h : m.write ⟨dst, 0 * len, len⟩ (m'.read ⟨src, o, len⟩) b (0 * len + j)
      = if b = dst ∧ 0 = 0 then m' src (o + j) else m b (0 * len + j) := write_block m m' hj
  simpa using h

/-- Copying to block `k`. -/
theorem copy_block (m : Mem β α) {dst src b : β} {o k k' len j : ℕ} (hj : j < len) :
    m.copy dst (k * len) src o len b (k' * len + j)
      = if b = dst ∧ k' = k then m src (o + j) else m b (k' * len + j) :=
  write_block m m hj

/-- Copying to the start of a block. -/
theorem copy_start (m : Mem β α) {dst src b : β} {o len j : ℕ} (hj : j < len) :
    m.copy dst 0 src o len b j = if b = dst then m src (o + j) else m b j :=
  write_start m m hj

/-- Once a block has been copied to the start of a buffer, the two agree, also if
they are parts of the same buffer. -/
theorem copy_start_eq (m : Mem β α) (dst src : β) {k len j : ℕ} (hj : j < len) :
    m.copy dst 0 src (k * len) len dst j = m.copy dst 0 src (k * len) len src (k * len + j) := by
  rw [copy_start m hj, if_pos rfl, copy_apply]
  by_cases h : src = dst ∧ 0 ≤ k * len + j ∧ k * len + j < 0 + len
  · -- only block 0 overlaps the start
    have hzero : k * len = 0 := by
      rcases Nat.eq_zero_or_pos k with rfl | hpos
      · exact Nat.zero_mul len
      · have := Nat.le_mul_of_pos_left len hpos
        omega
    rw [if_pos h, hzero, Nat.zero_add, Nat.sub_zero, Nat.zero_add]
  · rw [if_neg h]

/-- Other blocks are left alone. -/
theorem copy_of_ne (m : Mem β α) {dst b : β} (h : b ≠ dst) (src : β) (o o' len : ℕ) :
    m.copy dst o src o' len b = m b :=
  funext fun _ => write_of_not_has fun hhas => h hhas.1

/-- Block `q` of `src` is copied to block `e q` of `dst`, for all `q < T`. -/
def copyBlocks (m : Mem β α) (dst src : β) (len : ℕ) (e : ℕ → ℕ) (T : ℕ) : Mem β α :=
  (List.range T).foldl (fun m q => m.copy dst (e q * len) src (q * len) len) m

section CopyBlocks

variable (m : Mem β α) {dst src : β} {len : ℕ} {e : ℕ → ℕ}

theorem copyBlocks_succ (T : ℕ) :
    m.copyBlocks dst src len e (T + 1)
      = (m.copyBlocks dst src len e T).copy dst (e T * len) src (T * len) len := by
  simp [copyBlocks, List.range_succ]

theorem copyBlocks_of_ne {b : β} (h : b ≠ dst) (T : ℕ) :
    m.copyBlocks dst src len e T b = m b := by
  induction T with
  | zero => rfl
  | succ T ih => rw [copyBlocks_succ, copy_of_ne _ h, ih]

/-- A block that is not copied to stays. -/
theorem copyBlocks_of_not_mem {j : ℕ} (hj : j < len) {k T : ℕ} (hk : ∀ q < T, k ≠ e q) :
    m.copyBlocks dst src len e T dst (k * len + j) = m dst (k * len + j) := by
  induction T with
  | zero => rfl
  | succ T ih =>
      rw [copyBlocks_succ, copy_block _ hj, if_neg fun h => hk T (Nat.lt_succ_self T) h.2,
        ih fun q hq => hk q (Nat.lt_succ_of_lt hq)]

theorem copyBlocks_apply (hne : src ≠ dst) {j : ℕ} (hj : j < len) {T : ℕ}
    (he : Set.InjOn e (Set.Iio T)) {q : ℕ} (hq : q < T) :
    m.copyBlocks dst src len e T dst (e q * len + j) = m src (q * len + j) := by
  induction T with
  | zero => exact absurd hq (Nat.not_lt_zero q)
  | succ T ih =>
      rw [copyBlocks_succ, copy_block _ hj]
      by_cases hqT : e q = e T
      · obtain rfl : q = T := he hq (Nat.lt_succ_self T) hqT
        rw [if_pos ⟨rfl, rfl⟩, copyBlocks_of_ne _ hne]
      · have hlt : q < T := by
          rcases Nat.lt_succ_iff_lt_or_eq.mp hq with hlt | rfl
          · exact hlt
          · exact absurd rfl hqT
        rw [if_neg fun h => hqT h.2, ih (he.mono fun p hp => Nat.lt_succ_of_lt hp) hlt]

end CopyBlocks

end Mem

end MiniCcl
