/-
MiniCcl/Departure.lean

A process that has returned, and those that have not.

Nobody tells the others when a process returns, so what they know of it is what the script
says.  That is enough.  A run can always be completed, a process that has returned takes no
part in the rest, and at the end nothing is in transit.  So from its return on nothing is on
the way to it, nobody has a cell to send to it, and whoever waits for it will find what it
needs in the channel.  A process may therefore be gone as soon as it has returned.
-/
import MiniCcl.Steps

namespace MiniCcl

variable {ι β α : Type*} [DecidableEq ι] [DecidableEq β]

namespace Fifo

variable {s t : Fifo ι β α} {i j : ι} {op : Xfer ι β}

/-- What is on the way to a process that has returned stays there. -/
theorem chan_prefix_of_finished (hi : (s.node i).Finished) (h : step.Reaches s t) (j : ι) :
    s.chan j i <+: t.chan j i := by
  induction h with
  | refl => exact List.prefix_rfl
  | @tail u v hreach hstep ih =>
      refine ih.trans ?_
      have hu : (u.node i).Finished := (frozen hreach hi).symm ▸ hi
      obtain ⟨a, d, hd, -, hflow⟩ := hstep
      rw [hflow]
      cases a with
      | act r => exact List.prefix_rfl
      | push i' j' =>
          rw [Label.flow]
          split
          · exact List.prefix_append _ _
          · exact List.prefix_rfl
      | pull i' j' =>
          -- it receives nothing any more
          obtain ⟨x, hx, -⟩ := hd
          have hne : ¬ (j = i' ∧ i = j') := by
            rintro ⟨rfl, rfl⟩
            rw [hu.find_eq_none] at hx
            cases hx
          rw [Label.flow, if_neg hne]

/-- A `Recv` from a process that has returned waits for ever unless its cells are there. -/
theorem find_of_short (hi : (s.node i).Finished) (hop : (s.node j).find (.recv, i) = some op)
    (hshort : (s.chan i j).length < op.slice.len) (h : step.Reaches s t) :
    (t.node j).find (.recv, i) = some op ∧ (t.chan i j).length < op.slice.len := by
  induction h with
  | refl => exact ⟨hop, hshort⟩
  | @tail u v hreach hstep ih =>
      obtain ⟨hfind, hlen⟩ := ih
      have hu : (u.node i).Finished := (frozen hreach hi).symm ▸ hi
      obtain ⟨a, d, hd, hplay, hflow⟩ := hstep
      have hrole : a.role j ≠ .xfer (.recv, i) := by
        intro hrole
        cases a with
        | act r =>
            rw [Label.role] at hrole
            split at hrole <;> cases hrole
        | push i' j' =>
            rw [Label.role] at hrole
            split at hrole <;> cases hrole
        | pull i' j' =>
            rw [Label.role] at hrole
            split at hrole
            · next hj =>
                cases hrole
                subst hj
                obtain ⟨x, hx, hx_le, -⟩ := hd
                obtain rfl := Option.some.inj (hfind.symm.trans hx)
                exact absurd hx_le (Nat.not_le_of_lt hlen)
            · cases hrole
      refine ⟨Node.find_play hrole (hplay j) hfind, ?_⟩
      rw [hflow]
      cases a with
      | act r => exact hlen
      | push i' j' =>
          -- and it sends nothing any more
          have hne : ¬ (i = i' ∧ j = j') := by
            rintro ⟨rfl, rfl⟩
            obtain ⟨x, hx, -⟩ := Option.map_eq_some_iff.mp hd
            rw [hu.find_eq_none] at hx
            cases hx
          rw [Label.flow, if_neg hne]
          exact hlen
      | pull i' j' =>
          rw [Label.flow]
          split
          · rw [List.length_drop]
            exact (Nat.sub_le _ _).trans_lt hlen
          · exact hlen

end Fifo

namespace Schedule

variable {R : ι → Prop} [DecidablePred R] {P : ι → Prog ι β α} {C : Script ι β α}
  (h : Schedule R P C) {m : ι → Mem β α} {s : Fifo ι β α}
  (hs : Fifo.step.Reaches (Fifo.init (team R P) m) s) {i : ι} (hi : (s.node i).Finished)
  {j : ι} {op : Xfer ι β}
include h hs

theorem exists_completion : ∃ t : ι → Node ι β α, Fifo.step.Reaches s ⟨t, fun _ _ => []⟩ ∧
    ∀ r, (t r).Finished := by
  obtain ⟨ls, t, hrun, hret, -⟩ := h.exists_fifo_run m
  obtain ⟨rest, hrest⟩ := Fifo.commuting.run_of_reaches (raceFree_start h.raceFree_team m) hrun
    (Fifo.terminal_of_finished fun r => ⟨true, hret r⟩) hs
  exact ⟨t, hrest.reaches, fun r => ⟨true, hret r⟩⟩

include hi

/-- **Nothing is on the way to a process that has returned.** -/
theorem chan_eq_nil_of_finished (j : ι) : s.chan j i = [] := by
  obtain ⟨t, ht, -⟩ := h.exists_completion hs
  exact List.prefix_nil.mp (Fifo.chan_prefix_of_finished hi ht j)

/-- **Nobody has anything to send to a process that has returned.** -/
theorem len_eq_zero_of_finished (hop : (s.node j).find (.send, i) = some op) :
    op.slice.len = 0 := by
  have hij : i ≠ j := by
    rintro rfl
    rw [hi.find_eq_none] at hop
    cases hop
  have hpush := Fifo.step_push hop
  have hleft : (Function.update s.node j
      ⟨(s.node j).without (.send, i), (s.node j).next, (s.node j).mem⟩ i).Finished := by
    rwa [Function.update_of_ne hij]
  -- what it sends would stay in the channel
  have hchan : (if j = j ∧ i = i then s.chan j i ++ (s.node j).mem.read op.slice
      else s.chan j i) = [] :=
    h.chan_eq_nil_of_finished (hs.tail ⟨_, hpush⟩) hleft j
  rw [if_pos ⟨rfl, rfl⟩, List.append_eq_nil_iff] at hchan
  rw [← Mem.length_read (s.node j).mem op.slice, hchan.2]
  rfl

/-- **Whoever receives from a process that has returned finds the cells in the channel.** -/
theorem len_le_of_finished (hop : (s.node j).find (.recv, i) = some op) :
    op.slice.len ≤ (s.chan i j).length := by
  by_contra hshort
  obtain ⟨t, ht, hall⟩ := h.exists_completion hs
  have hfind := (Fifo.find_of_short hi hop (Nat.lt_of_not_le hshort) ht).1
  rw [(hall j).find_eq_none] at hfind
  cases hfind

end Schedule

end MiniCcl
