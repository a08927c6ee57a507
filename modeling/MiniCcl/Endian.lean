/-
MiniCcl/Endian.lean

Numbers in network byte order.
-/
import Mathlib.Algebra.Group.Nat.Even

namespace MiniCcl

/-- The lowest `k` bytes of a number, highest byte first. -/
def toBigEndian : ℕ → ℕ → List UInt8
  | 0, _ => []
  | k + 1, n => toBigEndian k (n / 256) ++ [UInt8.ofNat n]

/-- The number that these bytes are, highest byte first. -/
def ofBigEndian (bs : List UInt8) : ℕ := bs.foldl (fun acc b => acc * 256 + b.toNat) 0

@[simp] theorem length_toBigEndian (k n : ℕ) : (toBigEndian k n).length = k := by
  induction k generalizing n with
  | zero => rfl
  | succ k ih => rw [toBigEndian, List.length_append, ih, List.length_singleton]

theorem ofBigEndian_append_singleton (bs : List UInt8) (b : UInt8) :
    ofBigEndian (bs ++ [b]) = ofBigEndian bs * 256 + b.toNat := by
  rw [ofBigEndian, List.foldl_append]
  rfl

theorem ofBigEndian_toBigEndian (k n : ℕ) : ofBigEndian (toBigEndian k n) = n % 256 ^ k := by
  induction k generalizing n with
  | zero => rw [pow_zero, Nat.mod_one]; rfl
  | succ k ih =>
      rw [toBigEndian, ofBigEndian_append_singleton, ih, UInt8.toNat_ofNat']
      calc n / 256 % 256 ^ k * 256 + n % 2 ^ 8 = n % 256 + 256 * (n / 256 % 256 ^ k) := by
            rw [Nat.mul_comm, Nat.add_comm, show 2 ^ 8 = 256 from rfl]
        _ = n % (256 * 256 ^ k) := Nat.mod_mul.symm
        _ = n % 256 ^ (k + 1) := by rw [pow_succ']

end MiniCcl
