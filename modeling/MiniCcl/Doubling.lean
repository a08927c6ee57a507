/-
MiniCcl/Doubling.lean

Recursive doubling on `n` ranks, where ranks without a partner skip a round.

In round `k` rank `r` combines the value of rank `r ^^^ 2 ^ k` into its own, if
there is such a rank.  `contributors n k r` is the set of ranks whose inputs are
in the value of `r` after `k` rounds.  It lies within the aligned block of
`2 ^ k` ranks around `r`, so partners never share a contributor and nothing is
combined twice.  It is the whole block if `n` is a power of two; otherwise some
rank never hears of the upper part (`two_pow_not_mem_contributors`).
-/
import Mathlib.Data.Nat.Log
import MiniCcl.Reduction

namespace MiniCcl

variable {α : Type*}

/-- The value of rank `r` after `k` rounds on the inputs `x`. -/
def doublingFold (f : α → α → α) (n : ℕ) (x : ℕ → α) : ℕ → ℕ → α
  | 0, r => x r
  | k + 1, r =>
      if r ^^^ 2 ^ k < n then
        f (doublingFold f n x k (r ^^^ 2 ^ k)) (doublingFold f n x k r)
      else doublingFold f n x k r

/-- The ranks whose inputs are in the value of rank `r` after `k` rounds. -/
def contributors (n : ℕ) : ℕ → ℕ → Finset ℕ
  | 0, r => {r}
  | k + 1, r =>
      if r ^^^ 2 ^ k < n then contributors n k (r ^^^ 2 ^ k) ∪ contributors n k r
      else contributors n k r

theorem doublingFold_congr {f : α → α → α} {n : ℕ} {x y : ℕ → α} {k : ℕ}
    (h : ∀ q < n, x q = y q) {r : ℕ} (hr : r < n) :
    doublingFold f n x k r = doublingFold f n y k r := by
  induction k generalizing r with
  | zero => exact h r hr
  | succ k ih =>
      rw [doublingFold, doublingFold]
      split_ifs with hpeer
      · rw [ih hpeer, ih hr]
      · exact ih hr

/-! ### Partners and blocks -/

theorem xor_mask_ne {mask : ℕ} (h : 0 < mask) (r : ℕ) : r ^^^ mask ≠ r := by
  intro hr
  have hzero : r ^^^ (r ^^^ mask) = 0 := by rw [hr, Nat.xor_self]
  rw [← Nat.xor_assoc, Nat.xor_self, Nat.zero_xor] at hzero
  omega

theorem xor_mask_cancel (r mask : ℕ) : r ^^^ mask ^^^ mask = r := by
  rw [Nat.xor_assoc, Nat.xor_self, Nat.xor_zero]

theorem xor_two_pow_div (r k : ℕ) : (r ^^^ 2 ^ k) / 2 ^ k = r / 2 ^ k ^^^ 1 := by
  rw [Nat.xor_div_two_pow, Nat.div_self (Nat.two_pow_pos k)]

theorem xor_one_div_two (a : ℕ) : (a ^^^ 1) / 2 = a / 2 := by
  rw [Nat.xor_div_two]
  exact Nat.xor_zero _

/-- Two numbers of one pair are equal or partners. -/
theorem eq_or_eq_xor_one {a b : ℕ} (h : a / 2 = b / 2) : a = b ∨ a = b ^^^ 1 := by
  have hmod : (b ^^^ 1) % 2 ≠ b % 2 := by
    intro hb
    apply xor_mask_ne one_pos b
    have hdiv := xor_one_div_two b
    omega
  have hdiv := xor_one_div_two b
  omega

/-- Blocks of `2 ^ (k + 1)` ranks consist of two blocks of `2 ^ k`. -/
theorem div_two_pow_succ (r k : ℕ) : r / 2 ^ (k + 1) = r / 2 ^ k / 2 := by
  rw [pow_succ, Nat.div_div_eq_div_mul]

theorem partner_div_two_pow_succ (r k : ℕ) :
    (r ^^^ 2 ^ k) / 2 ^ (k + 1) = r / 2 ^ (k + 1) := by
  rw [div_two_pow_succ, xor_two_pow_div, xor_one_div_two, ← div_two_pow_succ]

/-! ### Who contributes -/

theorem self_mem_contributors (n k r : ℕ) : r ∈ contributors n k r := by
  induction k with
  | zero => exact Finset.mem_singleton_self r
  | succ k ih =>
      rw [contributors]
      split_ifs
      · exact Finset.mem_union_right _ ih
      · exact ih

/-- Contributors are ranks of the aligned block of `r`. -/
theorem div_eq_of_mem_contributors {n k r q : ℕ} (hr : r < n) (hq : q ∈ contributors n k r) :
    q < n ∧ q / 2 ^ k = r / 2 ^ k := by
  induction k generalizing r with
  | zero =>
      have hqr : q = r := Finset.mem_singleton.mp hq
      subst hqr
      exact ⟨hr, rfl⟩
  | succ k ih =>
      rw [contributors] at hq
      split_ifs at hq with hpeer
      · rcases Finset.mem_union.mp hq with hq | hq
        · obtain ⟨hqn, hdiv⟩ := ih hpeer hq
          exact ⟨hqn, by rw [div_two_pow_succ, hdiv, ← div_two_pow_succ,
            partner_div_two_pow_succ]⟩
        · obtain ⟨hqn, hdiv⟩ := ih hr hq
          exact ⟨hqn, by rw [div_two_pow_succ, hdiv, ← div_two_pow_succ]⟩
      · obtain ⟨hqn, hdiv⟩ := ih hr hq
        exact ⟨hqn, by rw [div_two_pow_succ, hdiv, ← div_two_pow_succ]⟩

/-- **Nothing is combined twice**: partners have no contributor in common. -/
theorem disjoint_contributors {n k r : ℕ} (hr : r < n) (hpeer : r ^^^ 2 ^ k < n) :
    Disjoint (contributors n k (r ^^^ 2 ^ k)) (contributors n k r) := by
  rw [Finset.disjoint_left]
  intro q hq hq'
  have hdiv := (div_eq_of_mem_contributors hpeer hq).2
  rw [(div_eq_of_mem_contributors hr hq').2, xor_two_pow_div] at hdiv
  exact xor_mask_ne one_pos _ hdiv.symm

/-- If there are as many ranks as the block goes up to, everyone in it contributes. -/
theorem mem_contributors_of_block_le {n k r q : ℕ} (hblock : (r / 2 ^ k + 1) * 2 ^ k ≤ n)
    (h : q / 2 ^ k = r / 2 ^ k) : q ∈ contributors n k r := by
  induction k generalizing r with
  | zero =>
      rw [pow_zero, Nat.div_one, Nat.div_one] at h
      exact Finset.mem_singleton.mpr h
  | succ k ih =>
      -- both halves of the block are below `n`
      have hhalf {p : ℕ} (hp : p / 2 ^ (k + 1) = r / 2 ^ (k + 1)) :
          (p / 2 ^ k + 1) * 2 ^ k ≤ n := by
        refine le_trans ?_ hblock
        rw [div_two_pow_succ, div_two_pow_succ r] at hp
        rw [div_two_pow_succ, pow_succ', ← Nat.mul_assoc]
        exact Nat.mul_le_mul_right _ (by omega)
      have hpeer := partner_div_two_pow_succ r k
      have hlt : r ^^^ 2 ^ k < n :=
        (Nat.lt_div_mul_add (Nat.two_pow_pos k)).trans_le (by
          rw [← Nat.succ_mul]
          exact hhalf hpeer)
      rw [contributors, if_pos hlt, Finset.mem_union]
      rw [div_two_pow_succ, div_two_pow_succ r] at h
      rcases eq_or_eq_xor_one h with hsame | hother
      · exact .inr (ih (hhalf rfl) hsame)
      · exact .inl (ih (hhalf hpeer) (by rw [hother, xor_two_pow_div]))

/-- Among a power of two ranks everyone in the block contributes. -/
theorem mem_contributors_two_pow {K k r q : ℕ} (hk : k ≤ K) (hr : r < 2 ^ K)
    (h : q / 2 ^ k = r / 2 ^ k) : q ∈ contributors (2 ^ K) k r := by
  apply mem_contributors_of_block_le ?_ h
  have hsplit : 2 ^ K = 2 ^ (K - k) * 2 ^ k := by rw [← pow_add, Nat.sub_add_cancel hk]
  rw [hsplit] at hr ⊢
  exact Nat.mul_le_mul_right _ ((Nat.div_lt_iff_lt_mul (Nat.two_pow_pos k)).mpr hr)

theorem contributors_two_pow {K r : ℕ} (hr : r < 2 ^ K) :
    contributors (2 ^ K) K r = Finset.range (2 ^ K) := by
  ext q
  rw [Finset.mem_range]
  constructor
  · intro hq
    exact (div_eq_of_mem_contributors hr hq).1
  · intro hq
    exact mem_contributors_two_pow le_rfl hr
      (by rw [Nat.div_eq_of_lt hq, Nat.div_eq_of_lt hr])

/-- The first rank of a block hears of everyone in the block. -/
theorem mem_contributors_of_dvd {n k r q : ℕ} (hr : 2 ^ k ∣ r) (hq : q < n)
    (h : q / 2 ^ k = r / 2 ^ k) : q ∈ contributors n k r := by
  induction k generalizing r with
  | zero =>
      rw [pow_zero, Nat.div_one, Nat.div_one] at h
      exact Finset.mem_singleton.mpr h
  | succ k ih =>
      have hr : 2 ^ k ∣ r := (pow_dvd_pow 2 (Nat.le_succ k)).trans hr
      have hpeer : 2 ^ k ∣ r ^^^ 2 ^ k := by
        apply Nat.dvd_of_mod_eq_zero
        rw [Nat.xor_mod_two_pow, Nat.mod_self, Nat.xor_zero, Nat.mod_eq_zero_of_dvd hr]
      rw [div_two_pow_succ, div_two_pow_succ r] at h
      rw [contributors]
      rcases eq_or_eq_xor_one h with hsame | hother
      · split_ifs
        · exact Finset.mem_union_right _ (ih hr hsame)
        · exact ih hr hsame
      · rw [← xor_two_pow_div] at hother
        have hle : r ^^^ 2 ^ k ≤ q := by
          calc r ^^^ 2 ^ k = (r ^^^ 2 ^ k) / 2 ^ k * 2 ^ k := (Nat.div_mul_cancel hpeer).symm
            _ = q / 2 ^ k * 2 ^ k := by rw [hother]
            _ ≤ q := Nat.div_mul_le_self q _
        rw [if_pos (hle.trans_lt hq)]
        exact Finset.mem_union_left _ (ih hpeer hother)

theorem contributors_zero {n : ℕ} (hn : 0 < n) :
    contributors n (Nat.clog 2 n) 0 = Finset.range n := by
  ext q
  rw [Finset.mem_range]
  constructor
  · intro hq
    exact (div_eq_of_mem_contributors hn hq).1
  · intro hq
    apply mem_contributors_of_dvd (dvd_zero _) hq
    rw [Nat.div_eq_of_lt (hq.trans_le (Nat.le_pow_clog (by decide) n)), Nat.zero_div]

/-- **If the number of ranks is not a power of two**, then the input of rank
`2 ^ K`, the first of the upper part, never reaches rank `n - 2 ^ K`: in the only
round that could bring it, that rank has no partner. -/
theorem two_pow_not_mem_contributors {n K : ℕ} (hlo : 2 ^ K < n) (hhi : n < 2 ^ (K + 1)) :
    2 ^ K ∉ contributors n (K + 1) (n - 2 ^ K) := by
  have hlow : n - 2 ^ K < 2 ^ K := by
    rw [pow_succ] at hhi
    omega
  have hpartner : (n - 2 ^ K) ^^^ 2 ^ K = n := by
    have hdiv : ((n - 2 ^ K) ^^^ 2 ^ K) / 2 ^ K = 1 := by
      rw [xor_two_pow_div, Nat.div_eq_of_lt hlow, Nat.zero_xor]
    have hmod : ((n - 2 ^ K) ^^^ 2 ^ K) % 2 ^ K = n - 2 ^ K := by
      rw [Nat.xor_mod_two_pow, Nat.mod_self, Nat.xor_zero, Nat.mod_eq_of_lt hlow]
    have hsplit := Nat.div_add_mod ((n - 2 ^ K) ^^^ 2 ^ K) (2 ^ K)
    rw [hdiv, hmod] at hsplit
    omega
  rw [contributors, hpartner, if_neg (lt_irrefl n)]
  intro hmem
  have hdiv := (div_eq_of_mem_contributors (by omega) hmem).2
  rw [Nat.div_self (Nat.two_pow_pos K), Nat.div_eq_of_lt hlow] at hdiv
  exact one_ne_zero hdiv

/-- The rounds of a number of ranks that is not a power of two. -/
theorem exists_between_two_pow {n : ℕ} (hn : 0 < n) (h : ¬ ∃ k, n = 2 ^ k) :
    ∃ K, Nat.clog 2 n = K + 1 ∧ 2 ^ K < n ∧ n < 2 ^ (K + 1) := by
  have hone : n ≠ 1 := by
    rintro rfl
    exact h ⟨0, rfl⟩
  have hpos : 0 < Nat.clog 2 n := Nat.clog_pos (by decide) (by omega)
  obtain ⟨K, hK⟩ := Nat.exists_eq_succ_of_ne_zero hpos.ne'
  refine ⟨K, hK, (Nat.lt_clog_iff_pow_lt (by decide)).mp (by omega), ?_⟩
  have hle := Nat.le_pow_clog (b := 2) (by decide) n
  rw [hK] at hle
  exact lt_of_le_of_ne hle fun heq => h ⟨K + 1, heq⟩

/-! ### What is computed -/

/-- The value is put together with `f` from the inputs of the ranks `S`, from each of
them once. -/
inductive Combination (f : α → α → α) (x : ℕ → α) : Finset ℕ → α → Prop
  | input (q : ℕ) : Combination f x {q} (x q)
  | merge {S T : Finset ℕ} {a b : α} : Disjoint S T → Combination f x S a →
      Combination f x T b → Combination f x (S ∪ T) (f a b)

/-- For the reductions other than `AVG` only the set matters. -/
theorem Combination.isReduction {w : ℕ} {op : ReduceOp} (hop : op ≠ .avg) {x : ℕ → BitVec w}
    {S : Finset ℕ} {v : BitVec w} (h : Combination (reduceElem op) x S v) :
    IsReduction op S x v := by
  induction h with
  | input q => exact .singleton hop x q
  | merge hdisjoint _ _ ihS ihT => exact ihS.merge hop ihT hdisjoint

/-- **Recursive doubling combines the inputs of the contributors.** -/
theorem combination_doublingFold (f : α → α → α) {n : ℕ} (x : ℕ → α) (k : ℕ) {r : ℕ}
    (hr : r < n) : Combination f x (contributors n k r) (doublingFold f n x k r) := by
  induction k generalizing r with
  | zero => exact .input r
  | succ k ih =>
      rw [contributors, doublingFold]
      split_ifs with hpeer
      · exact .merge (disjoint_contributors hr hpeer) (ih hpeer) (ih hr)
      · exact ih hr

theorem isReduction_doublingFold {w : ℕ} {op : ReduceOp} (hop : op ≠ .avg) {n : ℕ}
    (x : ℕ → BitVec w) (k : ℕ) {r : ℕ} (hr : r < n) :
    IsReduction op (contributors n k r) x (doublingFold (reduceElem op) n x k r) :=
  (combination_doublingFold (reduceElem op) x k hr).isReduction hop

end MiniCcl
