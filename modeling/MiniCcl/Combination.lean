/-
MiniCcl/Combination.lean

Combining in any order.

`Combination f x S v` leaves open in which order and how bracketed `v` is put together
from the inputs of `S`.  If `f` is associative and commutative there is only one such
value (`Combination.unique`): read `f` as multiplication and adjoin a unit, and the value
is the product over `S`.  Chains, stars and recursive doubling then agree as soon as they
go through the same processes.
-/
import Mathlib.Algebra.BigOperators.Group.Finset.Basic
import Mathlib.Algebra.Group.WithOne.Basic
import MiniCcl.Doubling

namespace MiniCcl

variable {α : Type*} {f : α → α → α}

/-- The order and the bracketing of a combination do not matter. -/
structure Orderless (f : α → α → α) : Prop where
  assoc : ∀ a b c, f (f a b) c = f a (f b c)
  comm : ∀ a b, f a b = f b a

/-- The multiplication that combines. -/
abbrev Orderless.commSemigroup (h : Orderless f) : CommSemigroup α where
  mul := f
  mul_assoc := h.assoc
  mul_comm := h.comm

namespace Combination

variable {x y : ℕ → α} {S T : Finset ℕ} {u v : α}

/-- With a unit adjoined the value is a product. -/
theorem coe_eq_prod (hf : Orderless f) (h : Combination f x S v) :
    let _ := hf.commSemigroup
    (v : WithOne α) = ∏ q ∈ S, (x q : WithOne α) := by
  let _ := hf.commSemigroup
  induction h with
  | input q => exact (Finset.prod_singleton (fun q => (x q : WithOne α)) q).symm
  | @merge S T a b hdisjoint _ _ ihS ihT =>
      calc ((f a b : α) : WithOne α) = (a : WithOne α) * (b : WithOne α) := WithOne.coe_mul a b
        _ = (∏ q ∈ S, (x q : WithOne α)) * ∏ q ∈ T, (x q : WithOne α) := by rw [ihS, ihT]
        _ = ∏ q ∈ S ∪ T, (x q : WithOne α) := (Finset.prod_union hdisjoint).symm

/-- **The order of combination does not matter.** -/
theorem unique (hf : Orderless f) (hu : Combination f x S u) (hv : Combination f x S v) :
    u = v := by
  let _ := hf.commSemigroup
  exact WithOne.coe_injective ((hu.coe_eq_prod hf).trans (hv.coe_eq_prod hf).symm)

/-- Only the inputs that are used matter. -/
theorem congr (h : Combination f x S v) (hxy : ∀ q ∈ S, x q = y q) : Combination f y S v := by
  induction h with
  | input q =>
      rw [hxy q (Finset.mem_singleton_self q)]
      exact .input q
  | @merge S T a b hdisjoint _ _ ihS ihT =>
      exact .merge hdisjoint (ihS fun q hq => hxy q (Finset.mem_union_left T hq))
        (ihT fun q hq => hxy q (Finset.mem_union_right S hq))

/-- A chain through different processes. -/
theorem chainFold (f : α → α → α) (x : ℕ → α) {e : ℕ → ℕ} {k : ℕ}
    (he : Set.InjOn e (Set.Iic k)) :
    Combination f x ((Finset.range (k + 1)).image e)
      (MiniCcl.chainFold f (fun p => x (e p)) k) := by
  induction k with
  | zero =>
      have himage : (Finset.range 1).image e = {e 0} := by simp
      rw [himage]
      exact .input (e 0)
  | succ k ih =>
      have hnew : e (k + 1) ∉ (Finset.range (k + 1)).image e := by
        rw [Finset.mem_image]
        rintro ⟨p, hp, heq⟩
        have hp := Finset.mem_range.mp hp
        have hsame : p = k + 1 := he (Nat.le_of_lt hp) (Set.mem_Iic.mpr le_rfl) heq
        omega
      have hunion : (Finset.range (k + 1 + 1)).image e
          = (Finset.range (k + 1)).image e ∪ {e (k + 1)} := by
        rw [Finset.range_add_one, Finset.image_insert, Finset.union_comm]
        rfl
      rw [hunion]
      exact .merge (Finset.disjoint_singleton_right.mpr hnew)
        (ih (he.mono fun p hp => Nat.le_succ_of_le hp)) (.input _)

/-- The fold in the order of the numbers. -/
theorem rankOrder (f : α → α → α) (x : ℕ → α) {n : ℕ} (hn : 1 ≤ n) :
    Combination f x (Finset.range n) (MiniCcl.chainFold f x (n - 1)) := by
  have h := chainFold f x (e := id) (k := n - 1) (Set.injOn_id _)
  rwa [Finset.image_id, Nat.sub_add_cancel hn] at h

/-- A star around a value. -/
theorem starFold {L : List ℕ} (hL : L.Nodup) (hv : Combination f x S v)
    (hS : ∀ p ∈ L, p ∉ S) : Combination f x (S ∪ L.toFinset) (MiniCcl.starFold f x v L) := by
  induction L generalizing S v with
  | nil => simpa [MiniCcl.starFold] using hv
  | cons p L ih =>
      obtain ⟨hp, hL⟩ := List.nodup_cons.mp hL
      have hstep : Combination f x ({p} ∪ S) (f (x p) v) :=
        .merge (Finset.disjoint_singleton_left.mpr (hS p List.mem_cons_self)) (.input p) hv
      have hunion : S ∪ (p :: L).toFinset = ({p} ∪ S) ∪ L.toFinset := by
        rw [List.toFinset_cons, Finset.insert_eq, Finset.union_comm {p} S, Finset.union_assoc]
      rw [hunion]
      refine ih hL hstep fun q hq => ?_
      rw [Finset.mem_union, Finset.mem_singleton]
      rintro (rfl | hqS)
      · exact hp hq
      · exact hS q (List.mem_cons_of_mem p hq) hqS

end Combination

end MiniCcl
