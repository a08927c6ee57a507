/-
MiniCcl/Average.lean

`AVG` against the mean.

`PerformReduce` divides by `world_size` in every call, so `AVG` divides as often
as the schedule combines.  Two ranks combine once, and the result is the mean.
From three ranks on it is not: if all ranks contribute 1, the first combination
is `2 / n = 0`, and from then on zeros and ones are combined to 0
(`combine_avg_of_isBit`).  This is so for `Reduce`, `AllReduce` and
`ReduceScatter` on both topologies, whatever the shape of the schedule:
`average_iff`.
-/
import MiniCcl.MeshAllReduce
import MiniCcl.MeshRooted
import MiniCcl.RingAllReduce
import MiniCcl.RingRooted

namespace MiniCcl

variable {α : Type*} {w n : ℕ}

/-! ### One call of PerformReduce -/

/-- The sums of the elements of the ranks do not overflow, in whatever order
they are added. -/
def NoOverflow (n : ℕ) (x : ℕ → BitVec w) : Prop :=
  ∀ T ⊆ Finset.range n,
    -2 ^ (w - 1) ≤ ∑ q ∈ T, (x q).toInt ∧ ∑ q ∈ T, (x q).toInt < 2 ^ (w - 1)

theorem toInt_ofNat_of_lt {k : ℕ} (hk : k < 2 ^ (w - 1)) : (BitVec.ofNat w k).toInt = k := by
  cases w with
  | zero =>
      obtain rfl : k = 0 := Nat.lt_one_iff.mp hk
      rfl
  | succ w =>
      have hlt : 2 * k < 2 ^ (w + 1) := by
        rw [Nat.add_sub_cancel] at hk
        rw [pow_succ]
        omega
      have hnat : (BitVec.ofNat (w + 1) k).toNat = k := by
        rw [BitVec.toNat_ofNat, Nat.mod_eq_of_lt (by omega)]
      rw [BitVec.toInt_eq_toNat_of_lt (by rwa [hnat]), hnat]

theorem toInt_sdiv_worldSize (hn : 0 < n) (hw : n < 2 ^ (w - 1)) (v : BitVec w) :
    (v.sdiv (BitVec.ofNat w n)).toInt = v.toInt.tdiv n := by
  have hne : BitVec.ofNat w n ≠ -1#w := by
    intro h
    have hint := congrArg BitVec.toInt h
    rw [toInt_ofNat_of_lt hw, BitVec.neg_one_eq_allOnes, BitVec.toInt_allOnes] at hint
    split_ifs at hint
    omega
  rw [BitVec.toInt_sdiv_of_ne_or_ne _ _ (.inr hne), toInt_ofNat_of_lt hw]

theorem combine_avg (a b : BitVec w) :
    combine .avg n a b = (combine .sum n a b).sdiv (BitVec.ofNat w n) := rfl

/-- Zero or one. -/
def IsBit (v : BitVec w) : Prop := ∃ k ≤ 1, v = BitVec.ofNat w k

theorem isBit_zero : IsBit 0#w := ⟨0, Nat.zero_le 1, rfl⟩

theorem isBit_one : IsBit 1#w := ⟨1, le_rfl, rfl⟩

/-- Among three ranks or more, the mean of two bits is taken as 0. -/
theorem combine_avg_of_isBit (hn : 3 ≤ n) (hw : n < 2 ^ (w - 1)) {a b : BitVec w}
    (ha : IsBit a) (hb : IsBit b) : combine .avg n a b = 0#w := by
  obtain ⟨j, hj, rfl⟩ := ha
  obtain ⟨k, hk, rfl⟩ := hb
  have hsum : combine .sum n (BitVec.ofNat w j) (BitVec.ofNat w k) = BitVec.ofNat w (k + j) :=
    (BitVec.ofNat_add k j).symm
  apply BitVec.eq_of_toInt_eq
  rw [combine_avg, toInt_sdiv_worldSize (by omega) hw, hsum, toInt_ofNat_of_lt (by omega),
    BitVec.toInt_zero]
  exact Int.tdiv_eq_zero_of_lt (by omega) (by omega)

/-! ### All ranks contribute 1 -/

section Const

variable {f : α → α → α} {P : α → Prop} {z o : α} (hf : ∀ a b, P a → P b → f a b = z)
  (hz : P z) (ho : P o)
include hf hz ho

theorem chainFold_const (k : ℕ) : chainFold f (fun _ => o) (k + 1) = z := by
  induction k with
  | zero => exact hf o o ho ho
  | succ k ih =>
      rw [chainFold, ih]
      exact hf z o hz ho

theorem starFold_const {ι : Type*} (p : ι) (L : List ι) :
    starFold f (fun _ => o) o (p :: L) = z := by
  have hstep : ∀ (L : List ι), starFold f (fun _ => o) z L = z := by
    intro L
    induction L with
    | nil => rfl
    | cons q L ih => rw [starFold_cons, hf o z ho hz, ih]
  rw [starFold_cons, hf o o ho ho, hstep]

theorem doublingFold_const_mem (k r : ℕ) : P (doublingFold f n (fun _ => o) k r) := by
  induction k generalizing r with
  | zero => exact ho
  | succ k ih =>
      rw [doublingFold]
      split_ifs
      · rw [hf _ _ (ih _) (ih r)]
        exact hz
      · exact ih r

/-- Rank 0 has a partner in every round. -/
theorem doublingFold_const {k : ℕ} (hk : 2 ^ k < n) :
    doublingFold f n (fun _ => o) (k + 1) 0 = z := by
  rw [doublingFold, Nat.zero_xor, if_pos hk]
  exact hf _ _ (doublingFold_const_mem hf hz ho k _) (doublingFold_const_mem hf hz ho k 0)

end Const

/-- With `SUM` the ones are counted, with `AVG` they come to 0. -/
def OnesResult (n : ℕ) (op : ReduceOp) (v : BitVec w) : Prop :=
  (op = .sum → v = BitVec.ofNat w n) ∧ (op = .avg → v = 0#w)

section Ones

variable (hn : 3 ≤ n) (hw : n < 2 ^ (w - 1)) (op : ReduceOp)
include hn hw

theorem onesResult_chainFold :
    OnesResult n op (chainFold (combine op n) (fun _ => 1#w) (n - 1)) := by
  obtain ⟨k, hk⟩ : ∃ k, n - 1 = k + 1 := ⟨n - 2, by omega⟩
  rw [hk]
  constructor
  · rintro rfl
    have hcount : ∀ k, chainFold (combine .sum n) (fun _ => 1#w) k = BitVec.ofNat w (k + 1) := by
      intro k
      induction k with
      | zero => rfl
      | succ k ih =>
          rw [chainFold, ih, Nat.add_comm (k + 1) 1]
          exact (BitVec.ofNat_add 1 (k + 1)).symm
    rw [hcount, ← hk, Nat.sub_add_cancel (by omega)]
  · rintro rfl
    exact chainFold_const (P := IsBit) (fun a b => combine_avg_of_isBit hn hw)
      isBit_zero isBit_one k

theorem onesResult_starFold {L : List ℕ} (hL : L.length = n - 1) :
    OnesResult n op (starFold (combine op n) (fun _ => 1#w) 1#w L) := by
  constructor
  · rintro rfl
    have hcount : ∀ (L : List ℕ) k, starFold (combine .sum n) (fun _ => 1#w) (BitVec.ofNat w k) L
        = BitVec.ofNat w (k + L.length) := by
      intro L
      induction L with
      | nil => exact fun k => rfl
      | cons p L ih =>
          intro k
          have hstep : combine .sum n 1#w (BitVec.ofNat w k) = BitVec.ofNat w (k + 1) :=
            (BitVec.ofNat_add k 1).symm
          rw [starFold_cons, hstep, ih, List.length_cons, Nat.add_right_comm, Nat.add_assoc]
    rw [hcount L 1, hL, Nat.add_sub_cancel' (by omega)]
  · rintro rfl
    obtain ⟨p, L, rfl⟩ := List.exists_cons_of_length_pos (by omega : 0 < L.length)
    exact starFold_const (P := IsBit) (fun a b => combine_avg_of_isBit hn hw)
      isBit_zero isBit_one p L

/-- Everyone contributes to the value of rank 0. -/
theorem onesResult_doublingFold :
    OnesResult n op (doublingFold (combine op n) n (fun _ => 1#w) (Nat.clog 2 n) 0) := by
  constructor
  · rintro rfl
    have hop : ReduceOp.sum ≠ .avg := by decide
    have hred := isReduction_doublingFold hop (fun _ => 1#w) (Nat.clog 2 n)
      (show 0 < n by omega)
    rw [contributors_zero (by omega)] at hred
    have hsum : ∑ q ∈ Finset.range n, 1#w = BitVec.ofNat w n := by
      rw [Finset.sum_const, Finset.card_range, nsmul_eq_mul, BitVec.natCast_eq_ofNat]
      exact BitVec.mul_one _
    exact hred.trans hsum
  · rintro rfl
    have hpos : 0 < Nat.clog 2 n := Nat.clog_pos (by decide) (by omega)
    obtain ⟨k, hk⟩ := Nat.exists_eq_succ_of_ne_zero hpos.ne'
    have hlt : 2 ^ k < n := (Nat.lt_clog_iff_pow_lt (by decide)).mp (by omega)
    rw [hk]
    exact doublingFold_const (P := IsBit) (fun a b => combine_avg_of_isBit hn hw)
      isBit_zero isBit_one hlt

end Ones

/-! ### The collectives -/

/-- The collectives that reduce. -/
inductive ReduceKind
  | reduce (root : ℕ)
  | allReduce
  | reduceScatter
  deriving DecidableEq, Repr

namespace ReduceKind

/-- The call of all ranks. -/
def call (c : ReduceKind) (sendBuf recvBuf : ℕ → ℕ) (count : ℕ) (dtype : DataType)
    (red : Reducer α) : Call α :=
  match c with
  | reduce root => .reduce sendBuf recvBuf count dtype red root
  | allReduce => .allReduce sendBuf recvBuf count dtype red
  | reduceScatter => .reduceScatter sendBuf recvBuf count dtype red

/-- The root, if there is one, is a rank. -/
def Valid (n : ℕ) : ReduceKind → Prop
  | reduce root => root < n
  | _ => True

theorem valid_call {c : ReduceKind} (hc : c.Valid n) (sendBuf recvBuf : ℕ → ℕ) (count : ℕ)
    (dtype : DataType) (red : Reducer α) :
    (c.call sendBuf recvBuf count dtype red).Valid n := by
  cases c with
  | reduce root => exact hc
  | allReduce => exact trivial
  | reduceScatter => exact trivial

/-- The ranks that hold results. -/
def HasResult (r : ℕ) : ReduceKind → Prop
  | reduce root => r = root
  | _ => True

/-- The element of the inputs that element `i` of the result of rank `r` reduces. -/
def index (count r i : ℕ) : ReduceKind → ℕ
  | reduceScatter => r * count + i
  | _ => i

end ReduceKind

/-- `s` is the end of a run of the programs `team` from the memories `m`. -/
def Completes (n : ℕ) (team : ℕ → RankProg α) (m : ℕ → RankMem α) (s : Fifo ℕ Buf α) : Prop :=
  Fifo.step.Reaches (Fifo.init team m) s ∧ ∀ r < n, (s.node r).Finished

/-- Wherever the call with `SUM` delivers the full sum, the same call with `AVG`
delivers the sum divided by the number of ranks. -/
def AvgIsMean (n : ℕ) (team : Call (BitVec w) → ℕ → RankProg (BitVec w)) (c : ReduceKind)
    (count : ℕ) (dtype : DataType) : Prop :=
  ∀ (sendBuf recvBuf : ℕ → ℕ) (m : ℕ → RankMem (BitVec w)) (s s' : Fifo ℕ Buf (BitVec w)),
    Completes n (team (c.call sendBuf recvBuf count dtype (.performReduce .sum n))) m s →
    Completes n (team (c.call sendBuf recvBuf count dtype (.performReduce .avg n))) m s' →
    ∀ r < n, c.HasResult r → ∀ i < count,
      NoOverflow n (fun q => m q (.user (sendBuf q)) (c.index count r i)) →
      ((s.node r).mem (.user (recvBuf r)) i).toInt
        = ∑ q ∈ Finset.range n, (m q (.user (sendBuf q)) (c.index count r i)).toInt →
      ((s'.node r).mem (.user (recvBuf r)) i).toInt
        = (∑ q ∈ Finset.range n, (m q (.user (sendBuf q)) (c.index count r i)).toInt).tdiv n

theorem sum_toInt_ones (hw : 1 < 2 ^ (w - 1)) (T : Finset ℕ) :
    ∑ _ ∈ T, (1#w).toInt = T.card := by
  rw [toInt_ofNat_of_lt hw, Finset.sum_const, nsmul_eq_mul, Nat.cast_one, mul_one]

theorem noOverflow_ones (hn : 2 ≤ n) (hw : n < 2 ^ (w - 1)) : NoOverflow n fun _ => 1#w := by
  intro T hT
  have hcard : T.card ≤ n := by
    have := Finset.card_le_card hT
    rwa [Finset.card_range] at this
  have hpow : (n : ℤ) < 2 ^ (w - 1) := by exact_mod_cast hw
  rw [sum_toInt_ones (by omega)]
  constructor <;> omega

/-- What decides whether `AVG` is the mean: two ranks combine once, and among
more ranks some rank counts the ones with `SUM` but gets 0 with `AVG`. -/
theorem avgIsMean_iff (hn : 2 ≤ n) (hw : n < 2 ^ (w - 1))
    {team : Call (BitVec w) → ℕ → RankProg (BitVec w)} {c : ReduceKind} (count : ℕ)
    (dtype : DataType)
    (hcomplete : ∀ op m, ∃ s,
      Completes n (team (c.call id id count dtype (.performReduce op n))) m s)
    (htwo : n = 2 → ∀ sendBuf recvBuf m, ∀ r < n, c.HasResult r → ∀ i < count, ∃ a b, ∀ op s,
      Completes n (team (c.call sendBuf recvBuf count dtype (.performReduce op n))) m s →
        (s.node r).mem (.user (recvBuf r)) i = combine op n a b)
    (hmore : 3 ≤ n → 0 < count → ∃ r < n, c.HasResult r ∧ ∀ op s,
      Completes n (team (c.call id id count dtype (.performReduce op n))) (fun _ _ _ => 1#w) s →
        OnesResult n op ((s.node r).mem (.user (id r)) 0)) :
    AvgIsMean n team c count dtype ↔ n = 2 ∨ count = 0 := by
  constructor
  · intro h
    by_contra hcond
    obtain ⟨hne, hcount⟩ := not_or.mp hcond
    obtain ⟨r, hr, hresult, hones⟩ := hmore (by omega) (Nat.pos_of_ne_zero hcount)
    obtain ⟨s, hs⟩ := hcomplete .sum fun _ _ _ => 1#w
    obtain ⟨s', hs'⟩ := hcomplete .avg fun _ _ _ => 1#w
    have hsum := (hones .sum s hs).1 rfl
    have havg := (hones .avg s' hs').2 rfl
    have htotal : ∑ _ ∈ Finset.range n, (1#w).toInt = (n : ℤ) := by
      rw [sum_toInt_ones (by omega), Finset.card_range]
    have hmean := h id id _ s s' hs hs' r hr hresult 0 (Nat.pos_of_ne_zero hcount)
      (noOverflow_ones hn hw)
    rw [hsum, havg, htotal, toInt_ofNat_of_lt hw] at hmean
    have hzero := hmean rfl
    rw [BitVec.toInt_zero, Int.tdiv_self (by omega)] at hzero
    exact zero_ne_one hzero
  · rintro (htwo' | rfl) sendBuf recvBuf m s s' hs hs' r hr hresult i hi - hsum
    · obtain ⟨a, b, hvalue⟩ := htwo htwo' sendBuf recvBuf m r hr hresult i hi
      rw [hvalue .avg s' hs', combine_avg, toInt_sdiv_worldSize (by omega) hw,
        ← hvalue .sum s hs, hsum]
    · exact absurd hi (Nat.not_lt_zero i)

/-! ### The ring -/

namespace TopologyRing

theorem avg_isMean_iff (hn : 2 ≤ n) (hw : n < 2 ^ (w - 1)) {c : ReduceKind} (hc : c.Valid n)
    (count : ℕ) (dtype : DataType) :
    AvgIsMean (w := w) n (callTeam n) c count dtype ↔ n = 2 ∨ count = 0 := by
  have hcomplete : ∀ op m, ∃ s, Completes (α := BitVec w) n
      (callTeam n (c.call id id count dtype (.performReduce op n))) m s :=
    fun op m => exists_completed hn (ReduceKind.valid_call hc ..) m
  cases c with
  | reduce root =>
      refine avgIsMean_iff hn hw count dtype hcomplete ?_ ?_
      · rintro rfl sendBuf recvBuf m r - rfl i hi
        exact ⟨_, _, fun op s hs => reduce_of_completed hn hc hs.1 hs.2 hi⟩
      · intro hthree hcount
        refine ⟨root, hc, rfl, ?_⟩
        intro op s hs
        rw [reduce_of_completed hn hc hs.1 hs.2 hcount]
        exact onesResult_chainFold hthree hw op
  | allReduce =>
      refine avgIsMean_iff hn hw count dtype hcomplete ?_ ?_
      · rintro rfl sendBuf recvBuf m r hr - i hi
        exact ⟨_, _, fun op s hs => value_of_completed_two hs.1 hs.2 hr hi⟩
      · intro hthree hcount
        refine ⟨0, by omega, trivial, ?_⟩
        intro op s hs
        obtain ⟨c, -, hvalue⟩ := value_of_completed hthree hs.1 hs.2 hcount
        rw [hvalue 0 (by omega)]
        exact onesResult_chainFold hthree hw op
  | reduceScatter =>
      refine avgIsMean_iff hn hw count dtype hcomplete ?_ ?_
      · rintro rfl sendBuf recvBuf m r hr - i hi
        exact ⟨_, _, fun op s hs => reduceScatter_of_completed hn hs.1 hs.2 hr hi⟩
      · intro hthree hcount
        refine ⟨0, by omega, trivial, ?_⟩
        intro op s hs
        rw [reduceScatter_of_completed hn hs.1 hs.2 (show 0 < n by omega) hcount]
        exact onesResult_chainFold hthree hw op

end TopologyRing

/-! ### The full mesh -/

namespace TopologyFullMesh

theorem length_peersOf {r : ℕ} (hr : r < n) : (peersOf n r).length = n - 1 := by
  rw [peersOf_eq hr, List.length_append, List.length_range, List.length_range']
  omega

theorem avg_isMean_iff (hn : 2 ≤ n) (hw : n < 2 ^ (w - 1)) {c : ReduceKind} (hc : c.Valid n)
    (count : ℕ) (dtype : DataType) :
    AvgIsMean (w := w) n (callTeam n) c count dtype ↔ n = 2 ∨ count = 0 := by
  have hone : 1 ≤ n := by omega
  have hcomplete : ∀ op m, ∃ s, Completes (α := BitVec w) n
      (callTeam n (c.call id id count dtype (.performReduce op n))) m s :=
    fun op m => exists_completed hone (ReduceKind.valid_call hc ..) m
  -- among two ranks there is one round, and everyone has a partner
  have hround : ∀ (f : BitVec w → BitVec w → BitVec w) x, ∀ r < 2,
      doublingFold f 2 x (Nat.clog 2 2) r = f (x (r ^^^ 1)) (x r) := by
    intro f x r hr
    have hpeer : r ^^^ 2 ^ 0 < 2 := Nat.xor_lt_two_pow (n := 1) hr (by decide)
    rw [show Nat.clog 2 2 = 1 from Nat.clog_pow 2 1 (by decide), doublingFold, if_pos hpeer]
    rfl
  cases c with
  | reduce root =>
      refine avgIsMean_iff hn hw count dtype hcomplete ?_ ?_
      · rintro rfl sendBuf recvBuf m r - rfl i hi
        obtain ⟨p, hp⟩ := List.length_eq_one_iff.mp (length_peersOf hc)
        refine ⟨m p (.user (sendBuf p)) i, m r (.user (sendBuf r)) i, ?_⟩
        intro op s hs
        rw [reduce_of_completed hone hc hs.1 hs.2 hi, hp]
        rfl
      · intro hthree hcount
        refine ⟨root, hc, rfl, ?_⟩
        intro op s hs
        rw [reduce_of_completed hone hc hs.1 hs.2 hcount]
        exact onesResult_starFold hthree hw op (length_peersOf hc)
  | allReduce =>
      refine avgIsMean_iff hn hw count dtype hcomplete ?_ ?_
      · rintro rfl sendBuf recvBuf m r hr - i hi
        exact ⟨_, _, fun op s hs =>
          (allReduce_of_completed hone hs.1 hs.2 hr hi).trans (hround _ _ r hr)⟩
      · intro hthree hcount
        refine ⟨0, by omega, trivial, ?_⟩
        intro op s hs
        rw [allReduce_of_completed hone hs.1 hs.2 (show 0 < n by omega) hcount]
        exact onesResult_doublingFold hthree hw op
  | reduceScatter =>
      refine avgIsMean_iff hn hw count dtype hcomplete ?_ ?_
      · rintro rfl sendBuf recvBuf m r hr - i hi
        exact ⟨_, _, fun op s hs =>
          (reduceScatter_of_completed hone hs.1 hs.2 hr hi).trans (hround _ _ r hr)⟩
      · intro hthree hcount
        refine ⟨0, by omega, trivial, ?_⟩
        intro op s hs
        rw [reduceScatter_of_completed hone hs.1 hs.2 (show 0 < n by omega) hcount]
        exact onesResult_doublingFold hthree hw op

end TopologyFullMesh

/-! ### Both topologies -/

/-- **`AVG` is the mean if and only if there are two ranks** (or nothing to
reduce), for each collective on each topology. -/
theorem average_iff (hn : 2 ≤ n) (hw : n < 2 ^ (w - 1)) {c : ReduceKind} (hc : c.Valid n)
    (count : ℕ) (dtype : DataType) :
    (AvgIsMean (w := w) n (TopologyRing.callTeam n) c count dtype ↔ n = 2 ∨ count = 0) ∧
      (AvgIsMean (w := w) n (TopologyFullMesh.callTeam n) c count dtype ↔ n = 2 ∨ count = 0) :=
  ⟨TopologyRing.avg_isMean_iff hn hw hc count dtype,
    TopologyFullMesh.avg_isMean_iff hn hw hc count dtype⟩

/-- Five ranks that reduce ten `int64` values to rank 3. -/
theorem average_iff_five :
    (AvgIsMean (w := 64) 5 (TopologyRing.callTeam 5) (.reduce 3) 10 .int64 ↔ 5 = 2 ∨ 10 = 0) ∧
      (AvgIsMean (w := 64) 5 (TopologyFullMesh.callTeam 5) (.reduce 3) 10 .int64
        ↔ 5 = 2 ∨ 10 = 0) :=
  average_iff (c := .reduce 3) (by decide) (by decide) (show 3 < 5 by decide) 10 .int64

/-- Three ranks that all contribute 1 to `AllReduce` on the ring get the sum 3
but the average 0. -/
theorem average_ones_three :
    ∃ s s' : Fifo ℕ Buf (BitVec 32),
      Completes 3 (TopologyRing.callTeam 3 (.allReduce id id 1 .int32 (.performReduce .sum 3)))
        (fun _ _ _ => 1#32) s ∧
      Completes 3 (TopologyRing.callTeam 3 (.allReduce id id 1 .int32 (.performReduce .avg 3)))
        (fun _ _ _ => 1#32) s' ∧
      NoOverflow 3 (fun _ => 1#32) ∧
      ∀ r < 3, ((s.node r).mem (.user r) 0).toInt = ∑ _ ∈ Finset.range 3, (1#32).toInt ∧
        ((s'.node r).mem (.user r) 0).toInt = 0 ∧
        ((s'.node r).mem (.user r) 0).toInt ≠ (∑ _ ∈ Finset.range 3, (1#32).toInt).tdiv 3 := by
  obtain ⟨s, hs⟩ := TopologyRing.exists_completed (n := 3) (by decide)
    (c := .allReduce id id 1 .int32 (Reducer.performReduce (w := 32) .sum 3)) trivial
    fun _ _ _ => 1#32
  obtain ⟨s', hs'⟩ := TopologyRing.exists_completed (n := 3) (by decide)
    (c := .allReduce id id 1 .int32 (Reducer.performReduce (w := 32) .avg 3)) trivial
    fun _ _ _ => 1#32
  obtain ⟨c, -, hsum⟩ := TopologyRing.value_of_completed le_rfl hs.1 hs.2 (i := 0) one_pos
  obtain ⟨c', -, havg⟩ := TopologyRing.value_of_completed le_rfl hs'.1 hs'.2 (i := 0) one_pos
  refine ⟨s, s', hs, hs', noOverflow_ones (by decide) (by decide), ?_⟩
  intro r hr
  have hzero : ((s'.node r).mem (.user r) 0).toInt = 0 :=
    (congrArg BitVec.toInt (havg r hr)).trans (by decide)
  refine ⟨(congrArg BitVec.toInt (hsum r hr)).trans (by decide), hzero, ?_⟩
  rw [hzero]
  decide

end MiniCcl
