/-
MiniCcl/Frame.lean

What a script leaves alone.

An event keeps a cell if its effect is the same there before and after, whatever the
memories are.  A script all of whose events keep a cell keeps it (`Script.exec_of_keeps`).
For each pattern that scripts are made of there is one lemma that says which cells it
keeps: those that no transfer of the pattern delivers to and no computation of it changes.
-/
import MiniCcl.Patterns

namespace MiniCcl

variable {ι β α : Type*}

/-! ### Cells outside of slices -/

namespace Slice

variable {b b' : β} {i len : ℕ}

theorem not_has_of_ne (h : b ≠ b') (off len : ℕ) : ¬ (⟨b', off, len⟩ : Slice β).Has b i :=
  fun hhas => h hhas.1

theorem not_has_start (h : ¬ (b = b' ∧ i < len)) : ¬ (⟨b', 0, len⟩ : Slice β).Has b i := by
  rintro ⟨hb, -, hhi⟩
  exact h ⟨hb, by simpa using hhi⟩

/-- A cell that is in none of `n` blocks. -/
theorem not_has_block {p n : ℕ} (hp : p < n) (h : ¬ (b = b' ∧ i < n * len)) :
    ¬ (⟨b', p * len, len⟩ : Slice β).Has b i := by
  rintro ⟨hb, -, hhi⟩
  refine h ⟨hb, hhi.trans_le ?_⟩
  calc p * len + len = (p + 1) * len := (Nat.succ_mul p len).symm
    _ ≤ n * len := Nat.mul_le_mul_right len hp

/-- Every cell of `n` blocks is in one of them. -/
theorem div_lt_mod_lt {n : ℕ} (hi : i < n * len) : i / len < n ∧ i % len < len := by
  have hpos : 0 < len := Nat.pos_of_ne_zero fun h => by simp [h] at hi
  exact ⟨Nat.div_lt_of_lt_mul (Nat.mul_comm n len ▸ hi), Nat.mod_lt i hpos⟩

end Slice

theorem Mem.copy_of_not_has [DecidableEq β] {m : Mem β α} {dst src b : β} {dstOff srcOff len i : ℕ}
    (h : ¬ (⟨dst, dstOff, len⟩ : Slice β).Has b i) :
    m.copy dst dstOff src srcOff len b i = m b i :=
  Mem.write_of_not_has h

/-! ### Events and scripts -/

variable [DecidableEq ι] [DecidableEq β]

/-- The event does not change cell `i` of block `b` of process `r`. -/
def Event.Keeps (r : ι) (b : β) (i : ℕ) (e : Event ι β α) : Prop :=
  ∀ m : ι → Mem β α, e.exec m r b i = m r b i

section Events

variable {r : ι} {b : β} {i : ℕ}

theorem Event.keeps_comm {q p : ι} {s d : Slice β} {w : ℕ} (h : r = p → ¬ d.Has b i) :
    (Event.comm q s p d w : Event ι β α).Keeps r b i := by
  intro m
  by_cases hr : r = p
  · subst hr
    rw [Event.exec, Function.update_self, Mem.write_of_not_has (h rfl)]
  · rw [Event.exec, Function.update_of_ne hr]

theorem Event.keeps_act {q : ι} {f : Mem β α → Mem β α} (h : r = q → ∀ m, f m b i = m b i) :
    (Event.act q f : Event ι β α).Keeps r b i := by
  intro m
  by_cases hr : r = q
  · subst hr
    rw [Event.exec, Function.update_self, h rfl]
  · rw [Event.exec, Function.update_of_ne hr]

end Events

namespace Script

variable {r : ι} {b : β} {i : ℕ} {C : Script ι β α}

/-- A script keeps the cells that all its events keep. -/
theorem exec_of_keeps (h : ∀ e ∈ C, e.Keeps r b i) (m : ι → Mem β α) :
    exec C m r b i = m r b i := by
  induction C generalizing m with
  | nil => rfl
  | cons e C ih =>
      rw [exec_cons, ih fun e' he' => h e' (List.mem_cons_of_mem e he')]
      exact h e List.mem_cons_self m

/-- Nothing changes at a process that no event concerns. -/
theorem exec_of_wf {R : ι → Prop} (h : ∀ e ∈ C, e.Wf R) (hr : ¬ R r) (m : ι → Mem β α) :
    exec C m r = m r := by
  funext b i
  refine exec_of_keeps (fun e he => ?_) m
  have hwf := h e he
  cases e with
  | comm q s p d w => exact Event.keeps_comm fun hrp => absurd (hrp ▸ hwf.2.1) hr
  | act q f => exact Event.keeps_act fun hrq => absurd (hrq ▸ hwf) hr

theorem keeps_flatMap {γ : Type*} {xs : List γ} {C : γ → Script ι β α}
    (h : ∀ x ∈ xs, ∀ e ∈ C x, e.Keeps r b i) : ∀ e ∈ xs.flatMap C, e.Keeps r b i := by
  intro e he
  obtain ⟨x, hx, he⟩ := List.mem_flatMap.mp he
  exact h x hx e he

theorem keeps_acts {q : ι} {fs : List (Mem β α → Mem β α)}
    (h : r = q → ∀ f ∈ fs, ∀ m, f m b i = m b i) :
    ∀ e ∈ (fs.map (.act q) : Script ι β α), e.Keeps r b i := by
  intro e he
  obtain ⟨f, hf, rfl⟩ := List.mem_map.mp he
  exact Event.keeps_act fun hr => h hr f hf

theorem keeps_locals {L : List ι} {f : ι → Mem β α → Mem β α}
    (h : r ∈ L → ∀ m, f r m b i = m b i) : ∀ e ∈ locals L f, e.Keeps r b i := by
  intro e he
  obtain ⟨q, hq, rfl⟩ := List.mem_map.mp he
  refine Event.keeps_act ?_
  rintro rfl
  exact h hq

theorem keeps_hops {next : ι → ι} {L : List ι} {s d : ι → Slice β} {w : ℕ}
    (h : ∀ q ∈ L, r = next q → ¬ (d r).Has b i) :
    ∀ e ∈ (hops next L s d w : Script ι β α), e.Keeps r b i := by
  intro e he
  obtain ⟨q, hq, rfl⟩ := List.mem_map.mp he
  refine Event.keeps_comm ?_
  intro hr
  rw [← hr]
  exact h q hq hr

/-- A chain changes where its hops arrive and what the processes there compute. -/
theorem keeps_chain {e : ℕ → ι} {s d : ℕ → Slice β} {w : ℕ}
    {acts : ℕ → List (Mem β α → Mem β α)} {K : ℕ}
    (hd : ∀ p < K, r = e (p + 1) → ¬ (d (p + 1)).Has b i)
    (hacts : ∀ p < K, r = e (p + 1) → ∀ f ∈ acts (p + 1), ∀ m, f m b i = m b i) :
    ∀ a ∈ chain e s d w acts K, a.Keeps r b i := by
  refine keeps_flatMap fun p hp => List.forall_mem_cons.mpr ⟨?_, ?_⟩
  · exact Event.keeps_comm (hd p (List.mem_range.mp hp))
  · exact keeps_acts (hacts p (List.mem_range.mp hp))

theorem keeps_inward {root : ι} {L : List ι} {s d : ι → Slice β} {w : ℕ}
    {acts : ι → List (Mem β α → Mem β α)}
    (hd : ∀ p ∈ L, r = root → ¬ (d p).Has b i)
    (hacts : ∀ p ∈ L, r = root → ∀ f ∈ acts p, ∀ m, f m b i = m b i) :
    ∀ a ∈ inward root L s d w acts, a.Keeps r b i := by
  refine keeps_flatMap fun p hp => List.forall_mem_cons.mpr ⟨?_, ?_⟩
  · exact Event.keeps_comm (hd p hp)
  · exact keeps_acts (hacts p hp)

theorem keeps_outward {root : ι} {L : List ι} {s d : ι → Slice β} {w : ℕ}
    (h : r ∈ L → ¬ (d r).Has b i) :
    ∀ a ∈ (outward root L s d w : Script ι β α), a.Keeps r b i := by
  intro a ha
  obtain ⟨p, hp, rfl⟩ := List.mem_map.mp ha
  refine Event.keeps_comm ?_
  rintro rfl
  exact h hp

end Script

end MiniCcl
