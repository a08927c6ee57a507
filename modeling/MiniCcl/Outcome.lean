/-
MiniCcl/Outcome.lean

A process alone, against a pattern of outcomes.

A pattern `o` decides which transfers succeed: `o k` is the result of the `k`-th
transfer that the process starts.  `Prog.returns` is what the process returns
under it and `Prog.log` what it has transferred, with the results.

A process is *careful* if, under every pattern, it returns `true` only if all
transfers in its log succeeded.  The ways in which programs are put together
keep this, as long as nobody drops a result.  For programs that drop the result
of every other transfer, `ChecksSecond.reports_iff` says what they hide.
-/
import Mathlib.Algebra.Ring.Parity
import MiniCcl.Process

namespace MiniCcl

variable {ι β α : Type*}

namespace Prog

/-- The result under the pattern `o`, if `k` transfers were started before. -/
def returns (o : ℕ → Bool) : Prog ι β α → ℕ → Bool
  | ret b, _ => b
  | act _ p, k => p.returns o k
  | par ops p, k => (p ((List.range' k ops.length).map o)).returns o (k + ops.length)

/-- The transfers and their results, if `k` transfers were started before. -/
def log (o : ℕ → Bool) : Prog ι β α → ℕ → List (Xfer ι β × Bool)
  | ret _, _ => []
  | act _ p, k => p.log o k
  | par ops p, k =>
      let results := (List.range' k ops.length).map o
      ops.zip results ++ (p results).log o (k + ops.length)

/-- If `true` is returned then nothing has failed. -/
def Reports (o : ℕ → Bool) (k : ℕ) (p : Prog ι β α) : Prop :=
  p.returns o k = true → ∀ e ∈ p.log o k, e.2 = true

/-- The process reports all failures, whatever fails. -/
def Careful (p : Prog ι β α) : Prop := ∀ o k, p.Reports o k

section Bind

variable (o : ℕ → Bool) (p q : Prog ι β α) (g : Bool → Prog ι β α) (k : ℕ)

theorem returns_bind : (p.bind g).returns o k
    = (g (p.returns o k)).returns o (k + (p.log o k).length) := by
  induction p generalizing k with
  | ret b => rfl
  | act f p ih => exact ih k
  | par ops p ih =>
      rw [bind, returns, ih, returns, log]
      simp [Nat.add_assoc]

theorem log_bind : (p.bind g).log o k
    = p.log o k ++ (g (p.returns o k)).log o (k + (p.log o k).length) := by
  induction p generalizing k with
  | ret b => rfl
  | act f p ih => exact ih k
  | par ops p ih =>
      rw [bind, log, ih, returns, log]
      simp [Nat.add_assoc]

@[simp]
theorem returns_andThen : (p.andThen q).returns o k
    = (p.returns o k && q.returns o (k + (p.log o k).length)) := by
  rw [andThen, returns_bind]
  cases p.returns o k <;> rfl

@[simp]
theorem log_andThen : (p.andThen q).log o k
    = p.log o k ++ if p.returns o k then q.log o (k + (p.log o k).length) else [] := by
  rw [andThen, log_bind]
  cases p.returns o k <;> rfl

end Bind

/-! ### Careful programs -/

@[simp] theorem careful_ret (b : Bool) : (ret b : Prog ι β α).Careful :=
  fun _ _ _ _ he => absurd he List.not_mem_nil

theorem Careful.act {p : Prog ι β α} (hp : p.Careful) (f : Mem β α → Mem β α) :
    (act f p).Careful := fun o k => hp o k

@[simp] theorem careful_doAct (f : Mem β α → Mem β α) : (doAct f : Prog ι β α).Careful :=
  (careful_ret true).act f

theorem Careful.andThen {p q : Prog ι β α} (hp : p.Careful) (hq : q.Careful) :
    (p.andThen q).Careful := by
  intro o k hret e he
  rw [returns_andThen, Bool.and_eq_true] at hret
  rw [log_andThen, if_pos hret.1] at he
  rcases List.mem_append.mp he with he | he
  · exact hp o k hret.1 e he
  · exact hq o _ hret.2 e he

theorem careful_all (ops : List (Xfer ι β)) : (all ops : Prog ι β α).Careful := by
  cases ops with
  | nil => exact careful_ret true
  | cons x xs =>
      intro o k hret e he
      rw [all, log, log, List.append_nil] at he
      exact List.all_eq_true.mp hret e.2 (List.of_mem_zip he).2

@[simp] theorem careful_send {peer : ι} {s : Slice β} {width : ℕ} :
    (send peer s width : Prog ι β α).Careful := careful_all _

@[simp] theorem careful_recv {peer : ι} {s : Slice β} {width : ℕ} :
    (recv peer s width : Prog ι β α).Careful := careful_all _

theorem careful_forEach {γ : Type*} {xs : List γ} {body : γ → Prog ι β α}
    (h : ∀ x ∈ xs, (body x).Careful) : (forEach xs body).Careful := by
  induction xs with
  | nil => exact careful_ret true
  | cons x xs ih =>
      exact (h x List.mem_cons_self).andThen (ih fun y hy => h y (List.mem_cons_of_mem _ hy))

/-! ### Programs that drop the result of a send

The transfers come in pairs, and only the second one of each is looked at. -/

/-- The program starts `N` pairs of transfers, unless the second one of a pair
fails, and returns whether that happens. -/
structure ChecksSecond (p : Prog ι β α) (N : ℕ) : Prop where
  returns_iff : ∀ o k, p.returns o k = true ↔ ∀ j < N, o (k + 2 * j + 1) = true
  results : ∀ o k, p.returns o k = true →
    (p.log o k).map Prod.snd = (List.range' k (2 * N)).map o

namespace ChecksSecond

theorem ret : (ret true : Prog ι β α).ChecksSecond 0 :=
  ⟨fun _ _ => ⟨fun _ _ hj => absurd hj (Nat.not_lt_zero _), fun _ => rfl⟩, fun _ _ _ => rfl⟩

theorem act {p : Prog ι β α} {N : ℕ} (hp : p.ChecksSecond N) (f : Mem β α → Mem β α) :
    (act f p).ChecksSecond N :=
  ⟨hp.returns_iff, hp.results⟩

theorem andThen {p q : Prog ι β α} {M N : ℕ} (hp : p.ChecksSecond M) (hq : q.ChecksSecond N) :
    (p.andThen q).ChecksSecond (M + N) := by
  have hlen : ∀ o k, p.returns o k = true → (p.log o k).length = 2 * M := by
    intro o k hret
    rw [← List.length_map Prod.snd, hp.results o k hret, List.length_map, List.length_range']
  constructor
  · intro o k
    rw [returns_andThen, Bool.and_eq_true]
    constructor
    · rintro ⟨hretp, hretq⟩ j hj
      rcases lt_or_ge j M with hlt | hge
      · exact (hp.returns_iff o k).mp hretp j hlt
      · -- a pair of the second program
        have hret := (hq.returns_iff o _).mp hretq (j - M) (by omega)
        rwa [hlen o k hretp, show k + 2 * M + 2 * (j - M) + 1 = k + 2 * j + 1 by omega] at hret
    · intro h
      have hretp := (hp.returns_iff o k).mpr fun j hj => h j (by omega)
      refine ⟨hretp, (hq.returns_iff o _).mpr fun j hj => ?_⟩
      rw [hlen o k hretp, show k + 2 * M + 2 * j + 1 = k + 2 * (M + j) + 1 by omega]
      exact h (M + j) (by omega)
  · intro o k hret
    rw [returns_andThen, Bool.and_eq_true] at hret
    rw [log_andThen, if_pos hret.1, List.map_append, hp.results o k hret.1,
      hq.results o _ hret.2, hlen o k hret.1, ← List.map_append, List.range'_append_1, Nat.mul_add]

theorem forEach {γ : Type*} {xs : List γ} {body : γ → Prog ι β α}
    (h : ∀ x, (body x).ChecksSecond 1) : (forEach xs body).ChecksSecond xs.length := by
  induction xs with
  | nil => exact ret
  | cons x xs ih =>
      rw [forEach_cons, List.length_cons, Nat.add_comm]
      exact (h x).andThen ih

/-- **Such a program hides a failure** if all transfers that it looks at succeed
and another one does not. -/
theorem reports_iff {p : Prog ι β α} {N : ℕ} (hp : p.ChecksSecond N) (o : ℕ → Bool) :
    p.Reports o 0 ↔
      ¬ ((∀ j < N, o (2 * j + 1) = true) ∧ ∃ j < N, o (2 * j) = false) := by
  have hsecond : p.returns o 0 = true ↔ ∀ j < N, o (2 * j + 1) = true := by
    rw [hp.returns_iff]
    simp only [Nat.zero_add]
  have hlog : p.returns o 0 = true →
      ((∀ e ∈ p.log o 0, e.2 = true) ↔ ∀ i < 2 * N, o i = true) := by
    intro hret
    have hresults := hp.results o 0 hret
    rw [← List.range_eq_range'] at hresults
    have hmap : (∀ b ∈ (p.log o 0).map Prod.snd, b = true) ↔ ∀ e ∈ p.log o 0, e.2 = true :=
      List.forall_mem_map
    rw [← hmap, hresults, List.forall_mem_map]
    simp only [List.mem_range]
  constructor
  · rintro h ⟨hrecv, j, hj, hfail⟩
    have hret := hsecond.mpr hrecv
    have htrue := (hlog hret).mp (h hret) (2 * j) (by omega)
    rw [hfail] at htrue
    cases htrue
  · intro h hret
    refine (hlog hret).mpr fun i hi => ?_
    have hrecv := hsecond.mp hret
    rcases Nat.even_or_odd' i with ⟨j, rfl | rfl⟩
    · by_contra hfail
      exact h ⟨hrecv, j, by omega, Bool.eq_false_iff.mpr hfail⟩
    · exact hrecv j (by omega)

end ChecksSecond

end Prog

end MiniCcl
