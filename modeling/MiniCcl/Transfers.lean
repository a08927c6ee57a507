/-
MiniCcl/Transfers.lean

Scripts made of transfers that do not get in each other's way.

If no transfer overwrites what another one sends, and no two of them write the
same cell, then their order does not matter: every transfer delivers what its
source held at the start (`exec_transfers`), and a cell that no transfer writes
stays as it is (`exec_of_not_writes`).  The stars and the exchanges of the full
mesh are of this kind.
-/
import MiniCcl.Patterns

namespace MiniCcl

variable {ι β α : Type*} [DecidableEq ι] [DecidableEq β]

/-! ### Cells that are not written -/

/-- The event may change cell `i` of block `b` of process `r`. -/
def Event.Writes (r : ι) (b : β) (i : ℕ) : Event ι β α → Prop
  | comm _ _ j d _ => r = j ∧ d.Has b i
  | act q _ => r = q

theorem Event.exec_of_not_writes {e : Event ι β α} {r : ι} {b : β} {i : ℕ}
    (h : ¬ e.Writes r b i) (m : ι → Mem β α) : e.exec m r b i = m r b i := by
  cases e with
  | comm q s p d w =>
      by_cases hr : r = p
      · subst hr
        have hnot : ¬ d.Has b i := fun hhas => h ⟨rfl, hhas⟩
        rw [Event.exec, Function.update_self, Mem.write_of_not_has hnot]
      · rw [Event.exec, Function.update_of_ne hr]
  | act q f =>
      rw [Event.exec, Function.update_of_ne h]

namespace Script

theorem exec_of_not_writes {C : Script ι β α} {r : ι} {b : β} {i : ℕ}
    (h : ∀ e ∈ C, ¬ e.Writes r b i) (m : ι → Mem β α) : exec C m r b i = m r b i := by
  induction C generalizing m with
  | nil => rfl
  | cons e C ih =>
      rw [exec_cons, ih fun e' he' => h e' (List.mem_cons_of_mem e he'),
        Event.exec_of_not_writes (h e List.mem_cons_self)]

/-! ### Transfers that are apart -/

/-- The script consists of one transfer from `q` to `p` for every pair in `P`;
`s q p` is what `q` sends to `p` and `d p q` where `p` receives it. -/
def Transfers (P : ι → ι → Prop) (s d : ι → ι → Slice β) (w : ℕ) (C : Script ι β α) : Prop :=
  ∀ e, e ∈ C ↔ ∃ q p, P q p ∧ e = .comm q (s q p) p (d p q) w

/-- No transfer overwrites what another one sends or has delivered. -/
structure Apart (P : ι → ι → Prop) (s d : ι → ι → Slice β) : Prop where
  len : ∀ q p, P q p → (s q p).len = (d p q).len
  source : ∀ q p q', P q p → P q' q → (s q p).Disjoint (d q q')
  target : ∀ q q' p, P q p → P q' p → q ≠ q' → (d p q).Disjoint (d p q')

section Transfers

variable {P : ι → ι → Prop} {s d : ι → ι → Slice β} {w : ℕ}

/-- The induction behind `exec_transfers`: a transfer delivers the value `v`, or it
has done so before. -/
theorem exec_deliver (hP : Apart P s d) {q p : ι} (hqp : P q p) {b : β} {i : ℕ}
    (hi : (d p q).Has b i) {C : Script ι β α}
    (hC : ∀ e ∈ C, ∃ q p, P q p ∧ e = .comm q (s q p) p (d p q) w) {v : α} (m : ι → Mem β α)
    (hv : m q (s q p).buf ((s q p).off + (i - (d p q).off)) = v)
    (h : m p b i = v ∨ .comm q (s q p) p (d p q) w ∈ C) : exec C m p b i = v := by
  induction C generalizing m with
  | nil => exact h.resolve_right List.not_mem_nil
  | cons e C ih =>
      obtain ⟨q', p', hqp', rfl⟩ := hC e List.mem_cons_self
      have hsource : (s q p).Has (s q p).buf ((s q p).off + (i - (d p q).off)) := by
        obtain ⟨-, hlo, hhi⟩ := hi
        have hlen := hP.len q p hqp
        exact ⟨rfl, Nat.le_add_right _ _, by omega⟩
      rw [exec_cons]
      apply ih fun e' he' => hC e' (List.mem_cons_of_mem _ he')
      · -- what is sent is still there
        rw [Event.exec_of_not_writes, hv]
        rintro ⟨rfl, hhas⟩
        exact (hP.source q p q' hqp hqp').not_has hsource hhas
      · by_cases hsame : q' = q ∧ p' = p
        · obtain ⟨rfl, rfl⟩ := hsame
          rw [Event.exec, Function.update_self, Mem.write_read_apply _ _ (hP.len q' p' hqp'),
            if_pos hi]
          exact .inl hv
        · -- another transfer does not write this cell
          rcases h with h | h
          · rw [Event.exec_of_not_writes]
            · exact .inl h
            · rintro ⟨rfl, hhas⟩
              have hne : q ≠ q' := fun hq => hsame ⟨hq.symm, rfl⟩
              exact (hP.target q q' p hqp hqp' hne).not_has hi hhas
          · rcases List.mem_cons.mp h with heq | hmem
            · injection heq with hq _ hp
              exact absurd ⟨hq.symm, hp.symm⟩ hsame
            · exact .inr hmem

/-- **Every transfer delivers** what its source held at the start. -/
theorem exec_transfers {C : Script ι β α} (hC : Transfers P s d w C) (hP : Apart P s d)
    {q p : ι} (hqp : P q p) {b : β} {i : ℕ} (hi : (d p q).Has b i) (m : ι → Mem β α) :
    exec C m p b i = m q (s q p).buf ((s q p).off + (i - (d p q).off)) :=
  exec_deliver hP hqp hi (fun e he => (hC e).mp he) m rfl (.inr ((hC _).mpr ⟨q, p, hqp, rfl⟩))

/-- The rest stays. -/
theorem exec_transfers_of_not_has {C : Script ι β α} (hC : Transfers P s d w C) {p : ι} {b : β}
    {i : ℕ} (h : ∀ q, P q p → ¬ (d p q).Has b i) (m : ι → Mem β α) :
    exec C m p b i = m p b i := by
  apply exec_of_not_writes
  intro e he
  obtain ⟨q, p', hqp, rfl⟩ := (hC e).mp he
  rintro ⟨rfl, hhas⟩
  exact h q hqp hhas

end Transfers

/-! ### Stars -/

section Stars

variable {root : ι} {L : List ι} {s d : ι → Slice β} {w : ℕ}

omit [DecidableEq ι] [DecidableEq β] in
theorem transfers_outward :
    Transfers (α := α) (fun q p => q = root ∧ p ∈ L) (fun _ p => s p) (fun p _ => d p) w
      (outward root L s d w) := by
  intro e
  simp only [outward, List.mem_map]
  constructor
  · rintro ⟨p, hp, rfl⟩
    exact ⟨root, p, ⟨rfl, hp⟩, rfl⟩
  · rintro ⟨q, p, ⟨rfl, hp⟩, rfl⟩
    exact ⟨p, hp, rfl⟩

omit [DecidableEq ι] [DecidableEq β] in
theorem transfers_inward :
    Transfers (α := α) (fun q p => p = root ∧ q ∈ L) (fun q _ => s q) (fun _ q => d q) w
      (inward root L s d w fun _ => []) := by
  intro e
  simp only [inward, List.map_nil, List.mem_flatMap, List.mem_singleton]
  constructor
  · rintro ⟨q, hq, rfl⟩
    exact ⟨q, root, ⟨rfl, hq⟩, rfl⟩
  · rintro ⟨q, p, ⟨rfl, hq⟩, rfl⟩
    exact ⟨q, hq, rfl⟩

variable (hroot : root ∉ L) (hlen : ∀ p ∈ L, (s p).len = (d p).len)
include hroot hlen

omit [DecidableEq ι] [DecidableEq β] in
/-- The rays of a star reach different processes, none of them the centre. -/
theorem apart_outward :
    Apart (fun q p => q = root ∧ p ∈ L) (fun _ p => s p) (fun p _ => d p) where
  len _ p h := hlen p h.2
  source _ _ _ h h' := absurd (h.1 ▸ h'.2) hroot
  target _ _ _ h h' hne := absurd (h.1.trans h'.1.symm) hne

omit [DecidableEq ι] [DecidableEq β] in
/-- What comes from different processes must go to different places. -/
theorem apart_inward (hd : ∀ p ∈ L, ∀ q ∈ L, p ≠ q → (d p).Disjoint (d q)) :
    Apart (fun q p => p = root ∧ q ∈ L) (fun q _ => s q) (fun _ q => d q) where
  len q _ h := hlen q h.2
  source _ _ _ h h' := absurd (h'.1 ▸ h.2) hroot
  target q q' _ h h' hne := hd q h.2 q' h'.2 hne

/-- Everyone in `L` receives what the root held. -/
theorem exec_outward (m : ι → Mem β α) (p : ι) :
    exec (outward root L s d w) m p
      = if p ∈ L then (m p).write (d p) ((m root).read (s p)) else m p := by
  funext b i
  by_cases hp : p ∈ L
  · rw [if_pos hp, Mem.write_read_apply _ _ (hlen p hp)]
    by_cases hi : (d p).Has b i
    · rw [if_pos hi]
      exact exec_transfers transfers_outward (apart_outward hroot hlen) ⟨rfl, hp⟩ hi m
    · rw [if_neg hi]
      exact exec_transfers_of_not_has transfers_outward (fun _ _ => hi) m
  · rw [if_neg hp]
    exact exec_transfers_of_not_has transfers_outward (fun _ h => absurd h.2 hp) m

end Stars

end Script

end MiniCcl
