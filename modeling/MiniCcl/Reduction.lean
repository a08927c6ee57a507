/-
MiniCcl/Reduction.lean

What a reduction of the inputs of several ranks is, and the two shapes in which
the collectives compute one.

`IsReduction op s x v` says that `v` is the reduction of the values `x r` of the
ranks `r` in `s`: their sum modulo `2 ^ w`, their greatest or least element as
signed integers, or their sum divided once by their number.  Except for `AVG`,
one call of `ReduceData` turns the reductions of two disjoint sets into that of
their union (`IsReduction.merge`).

`chainFold` combines values along a chain, `starFold` into an accumulator.
-/
import Mathlib.Algebra.BigOperators.Group.Finset.Basic
import Mathlib.Algebra.BigOperators.Group.Finset.Piecewise
import MiniCcl.Utils

namespace MiniCcl

variable {ι : Type*} {w : ℕ}

/-- `v` is the reduction of the values `x r` for `r` in `s`. -/
def IsReduction (op : ReduceOp) (s : Finset ι) (x : ι → BitVec w) (v : BitVec w) : Prop :=
  match op with
  | .sum => v = ∑ r ∈ s, x r
  | .max => (∃ r ∈ s, v = x r) ∧ ∀ r ∈ s, (x r).toInt ≤ v.toInt
  | .min => (∃ r ∈ s, v = x r) ∧ ∀ r ∈ s, v.toInt ≤ (x r).toInt
  | .avg => v = (∑ r ∈ s, x r).sdiv (BitVec.ofNat w s.card)

/-- Without `AVG`, one call of `PerformReduce` is one of `ReduceData`. -/
theorem combine_performReduce {op : ReduceOp} (hop : op ≠ .avg) (worldSize : ℕ) :
    (Reducer.performReduce (w := w) op worldSize).combine = reduceElem op := by
  funext a b
  exact if_neg hop

namespace IsReduction

/-- The reduction is unique. -/
theorem unique {op : ReduceOp} {s : Finset ι} {x : ι → BitVec w} {u v : BitVec w}
    (hu : IsReduction op s x u) (hv : IsReduction op s x v) : u = v := by
  cases op with
  | sum => exact hu.trans hv.symm
  | max =>
      obtain ⟨⟨q, hq, rfl⟩, hmaxu⟩ := hu
      obtain ⟨⟨r, hr, rfl⟩, hmaxv⟩ := hv
      exact BitVec.toInt_inj.mp (le_antisymm (hmaxv q hq) (hmaxu r hr))
  | min =>
      obtain ⟨⟨q, hq, rfl⟩, hminu⟩ := hu
      obtain ⟨⟨r, hr, rfl⟩, hminv⟩ := hv
      exact BitVec.toInt_inj.mp (le_antisymm (hminu r hr) (hminv q hq))
  | avg => exact hu.trans hv.symm

/-- A reduction depends on the values of the set only. -/
theorem congr {op : ReduceOp} {s : Finset ι} {x y : ι → BitVec w} {v : BitVec w}
    (hv : IsReduction op s x v) (h : ∀ r ∈ s, x r = y r) : IsReduction op s y v := by
  cases op with
  | sum => exact hv.trans (Finset.sum_congr rfl h)
  | max =>
      obtain ⟨⟨q, hq, rfl⟩, hmax⟩ := hv
      refine ⟨⟨q, hq, h q hq⟩, ?_⟩
      intro r hr
      rw [← h r hr]
      exact hmax r hr
  | min =>
      obtain ⟨⟨q, hq, rfl⟩, hmin⟩ := hv
      refine ⟨⟨q, hq, h q hq⟩, ?_⟩
      intro r hr
      rw [← h r hr]
      exact hmin r hr
  | avg =>
      have hsum : ∑ r ∈ s, x r = ∑ r ∈ s, y r := Finset.sum_congr rfl h
      show v = _
      rw [← hsum]
      exact hv

theorem singleton {op : ReduceOp} (hop : op ≠ .avg) (x : ι → BitVec w) (r : ι) :
    IsReduction op {r} x (x r) := by
  cases op with
  | sum => exact (Finset.sum_singleton x r).symm
  | max => exact ⟨⟨r, Finset.mem_singleton_self r, rfl⟩, by simp⟩
  | min => exact ⟨⟨r, Finset.mem_singleton_self r, rfl⟩, by simp⟩
  | avg => exact absurd rfl hop

variable [DecidableEq ι]

/-- **One call of `ReduceData`** turns the reductions of two disjoint sets of
ranks into that of their union. -/
theorem merge {op : ReduceOp} (hop : op ≠ .avg) {s t : Finset ι} {x : ι → BitVec w}
    {u v : BitVec w} (hu : IsReduction op s x u) (hv : IsReduction op t x v)
    (hst : Disjoint s t) : IsReduction op (s ∪ t) x (reduceElem op u v) := by
  cases op with
  | sum =>
      show v + u = _
      rw [Finset.sum_union hst, hu, hv, add_comm]
  | max =>
      obtain ⟨⟨q, hq, rfl⟩, hmaxu⟩ := hu
      obtain ⟨⟨p, hp, rfl⟩, hmaxv⟩ := hv
      show (∃ r ∈ s ∪ t, (if (x p).slt (x q) then x q else x p) = x r) ∧
        ∀ r ∈ s ∪ t, (x r).toInt ≤ (if (x p).slt (x q) then x q else x p).toInt
      by_cases hlt : (x p).slt (x q) = true
      · have hle := BitVec.slt_iff_toInt_lt.mp hlt
        rw [if_pos hlt]
        refine ⟨⟨q, Finset.mem_union_left t hq, rfl⟩, ?_⟩
        intro r hr
        rcases Finset.mem_union.mp hr with hr | hr
        · exact hmaxu r hr
        · exact (hmaxv r hr).trans hle.le
      · have hle := not_lt.mp (mt BitVec.slt_iff_toInt_lt.mpr hlt)
        rw [if_neg hlt]
        refine ⟨⟨p, Finset.mem_union_right s hp, rfl⟩, ?_⟩
        intro r hr
        rcases Finset.mem_union.mp hr with hr | hr
        · exact (hmaxu r hr).trans hle
        · exact hmaxv r hr
  | min =>
      obtain ⟨⟨q, hq, rfl⟩, hminu⟩ := hu
      obtain ⟨⟨p, hp, rfl⟩, hminv⟩ := hv
      show (∃ r ∈ s ∪ t, (if (x q).slt (x p) then x q else x p) = x r) ∧
        ∀ r ∈ s ∪ t, (if (x q).slt (x p) then x q else x p).toInt ≤ (x r).toInt
      by_cases hlt : (x q).slt (x p) = true
      · have hle := BitVec.slt_iff_toInt_lt.mp hlt
        rw [if_pos hlt]
        refine ⟨⟨q, Finset.mem_union_left t hq, rfl⟩, ?_⟩
        intro r hr
        rcases Finset.mem_union.mp hr with hr | hr
        · exact hminu r hr
        · exact hle.le.trans (hminv r hr)
      · have hle := not_lt.mp (mt BitVec.slt_iff_toInt_lt.mpr hlt)
        rw [if_neg hlt]
        refine ⟨⟨p, Finset.mem_union_right s hp, rfl⟩, ?_⟩
        intro r hr
        rcases Finset.mem_union.mp hr with hr | hr
        · exact hle.trans (hminu r hr)
        · exact hminv r hr
  | avg => exact absurd rfl hop

/-- Leaving out a rank makes a difference for some inputs: it contributes one
(minus one for `MIN`) and all others contribute zero. -/
theorem exists_separating {op : ReduceOp} (hop : op ≠ .avg) (hw : 2 ≤ w) {s t : Finset ι}
    {p : ι} (hs : p ∉ s) (ht : p ∈ t) :
    ∃ x : ι → BitVec w, ∀ v, IsReduction op s x v → ¬ IsReduction op t x v := by
  have hne : ∀ r ∈ s, r ≠ p := fun r hr h => hs (h ▸ hr)
  cases op with
  | sum =>
      refine ⟨fun r => if r = p then 1 else 0, ?_⟩
      intro v hv hv'
      have hzero : v = 0 := by
        rw [hv]
        exact Finset.sum_eq_zero fun r hr => if_neg (hne r hr)
      have hone : v = 1 := by
        rw [hv', Finset.sum_ite_eq' t p fun _ => (1 : BitVec w), if_pos ht]
      have hint := congrArg BitVec.toInt (hzero.symm.trans hone)
      rw [show (1 : BitVec w) = 1#w from rfl, BitVec.toInt_one (by omega)] at hint
      simp at hint
  | max =>
      refine ⟨fun r => if r = p then 1#w else 0#w, ?_⟩
      rintro v ⟨⟨r, hr, rfl⟩, -⟩ ⟨-, hmax⟩
      have hle := hmax p ht
      beta_reduce at hle
      rw [if_pos rfl, if_neg (hne r hr), BitVec.toInt_one (by omega)] at hle
      simp at hle
  | min =>
      refine ⟨fun r => if r = p then BitVec.allOnes w else 0#w, ?_⟩
      rintro v ⟨⟨r, hr, rfl⟩, -⟩ ⟨-, hmin⟩
      have hle := hmin p ht
      beta_reduce at hle
      rw [if_pos rfl, if_neg (hne r hr), BitVec.toInt_allOnes] at hle
      simp [show 0 < w by omega] at hle
  | avg => exact absurd rfl hop

end IsReduction

/-! ### Folds -/

variable {α : Type*}

/-- `x 0, …, x k` combined along a chain: each value arrives and is combined
into the next one. -/
def chainFold (f : α → α → α) (x : ℕ → α) : ℕ → α
  | 0 => x 0
  | k + 1 => f (chainFold f x k) (x (k + 1))

/-- The values of `L` combined, one after the other, into `v`. -/
def starFold (f : α → α → α) (x : ι → α) (v : α) (L : List ι) : α :=
  L.foldl (fun acc p => f (x p) acc) v

theorem starFold_cons (f : α → α → α) (x : ι → α) (v : α) (p : ι) (L : List ι) :
    starFold f x v (p :: L) = starFold f x (f (x p) v) L := rfl

theorem chainFold_congr {f : α → α → α} {x y : ℕ → α} {k : ℕ} (h : ∀ p ≤ k, x p = y p) :
    chainFold f x k = chainFold f y k := by
  induction k with
  | zero => exact h 0 le_rfl
  | succ k ih =>
      rw [chainFold, chainFold, ih fun p hp => h p (Nat.le_succ_of_le hp), h (k + 1) le_rfl]

/-- A chain through different ranks computes their reduction. -/
theorem isReduction_chainFold [DecidableEq ι] {op : ReduceOp} (hop : op ≠ .avg)
    (x : ι → BitVec w) {e : ℕ → ι} {k : ℕ} (he : Set.InjOn e (Set.Iic k)) :
    IsReduction op ((Finset.range (k + 1)).image e) x
      (chainFold (reduceElem op) (fun p => x (e p)) k) := by
  induction k with
  | zero =>
      have himage : (Finset.range 1).image e = {e 0} := by simp
      rw [himage]
      exact .singleton hop x (e 0)
  | succ k ih =>
      have hk : Set.InjOn e (Set.Iic k) := he.mono fun p hp => Nat.le_succ_of_le hp
      have hdisj : Disjoint ((Finset.range (k + 1)).image e) {e (k + 1)} := by
        rw [Finset.disjoint_singleton_right, Finset.mem_image]
        rintro ⟨p, hp, heq⟩
        have hp := Finset.mem_range.mp hp
        have : p = k + 1 := he (Nat.le_of_lt hp) (Set.mem_Iic.mpr le_rfl) heq
        omega
      have hunion : (Finset.range (k + 1 + 1)).image e
          = (Finset.range (k + 1)).image e ∪ {e (k + 1)} := by
        rw [Finset.range_add_one, Finset.image_insert, Finset.union_comm]
        rfl
      rw [hunion]
      exact (ih hk).merge hop (.singleton hop x (e (k + 1))) hdisj

/-- A star computes the reduction of its centre and its rays. -/
theorem isReduction_starFold [DecidableEq ι] {op : ReduceOp} (hop : op ≠ .avg)
    {x : ι → BitVec w} {s : Finset ι} {v : BitVec w} (hv : IsReduction op s x v)
    {L : List ι} (hL : L.Nodup) (hs : ∀ p ∈ L, p ∉ s) :
    IsReduction op (s ∪ L.toFinset) x (starFold (reduceElem op) x v L) := by
  induction L generalizing s v with
  | nil => simpa [starFold] using hv
  | cons p L ih =>
      obtain ⟨hp, hL⟩ := List.nodup_cons.mp hL
      have hdisj : Disjoint {p} s :=
        Finset.disjoint_singleton_left.mpr (hs p List.mem_cons_self)
      have hstep := (IsReduction.singleton hop x p).merge hop hv hdisj
      have hunion : s ∪ (p :: L).toFinset = ({p} ∪ s) ∪ L.toFinset := by
        ext r
        simp only [Finset.mem_union, List.mem_toFinset, List.mem_cons, Finset.mem_singleton]
        tauto
      rw [hunion]
      refine ih hstep hL ?_
      intro q hq
      rw [Finset.mem_union, Finset.mem_singleton]
      rintro (rfl | hqs)
      · exact hp hq
      · exact hs q (List.mem_cons_of_mem p hq) hqs

end MiniCcl
