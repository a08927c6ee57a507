/-
MiniCcl/Steps.lean

Single steps of a network over channels, and how many there can be.

What a `Send` and a `Recv` do to the process and to the channel is written out once, as
`Fifo.step_act` does for local steps.  A process has a number of steps before it, if its
transfers all succeed, and every step of the network takes one of one process
(`Fifo.remaining_lt`).
-/
import MiniCcl.Checkpoint
import MiniCcl.Position
import Mathlib.Algebra.Order.BigOperators.Group.Finset

namespace MiniCcl

open Function

variable {ι β α : Type*}

/-! ### Steps before a process -/

/-- Every computation, every start of a batch and every transfer is a step. -/
def Prog.steps : Prog ι β α → ℕ
  | .ret _ => 0
  | .act _ k => k.steps + 1
  | .par ops k => (k (ops.map fun _ => true)).steps + ops.length + 1

def Node.steps (x : Node ι β α) : ℕ := x.pending.length + x.next.steps

theorem Node.steps_local? {x y : Node ι β α} (h : x.local? = some y) : y.steps < x.steps := by
  rcases Node.local?_cases h with ⟨f, k, m, rfl, rfl⟩ | ⟨ops, k, m, rfl, rfl⟩
  · exact Nat.add_lt_add_left (Nat.lt_succ_self _) 0
  · show ops.length + (k (ops.map fun _ => true)).steps
      < 0 + ((k (ops.map fun _ => true)).steps + ops.length + 1)
    omega

variable [DecidableEq ι]

theorem Node.steps_without {x : Node ι β α} {k : Dir × ι} {op : Xfer ι β}
    (h : x.find k = some op) (m : Mem β α) :
    (⟨x.without k, x.next, m⟩ : Node ι β α).steps < x.steps := by
  have hlen : (x.without k).length = x.pending.length - 1 :=
    List.length_eraseP_of_mem (Node.mem_of_find h) (decide_eq_true (Node.key_of_find h))
  have hpos := List.length_pos_of_mem (Node.mem_of_find h)
  show (x.without k).length + x.next.steps < x.pending.length + x.next.steps
  omega

namespace Fifo

variable [DecidableEq β] {s t : Fifo ι β α} {i j : ι} {op : Xfer ι β}

/-! ### Transfers -/

/-- One process plays a role and the others are idle. -/
theorem play_update {x : Node ι β α} {d : List α} {k : Role ι} (h : (s.node i).play d k = some x)
    (q : ι) : (s.node q).play d (if q = i then k else .idle) = some (update s.node i x q) := by
  by_cases hq : q = i
  · subst hq
    rw [if_pos rfl, update_self, h]
  · rw [if_neg hq, update_of_ne hq]
    rfl

theorem step_push (h : (s.node i).find (.send, j) = some op) :
    step s (.push i j)
      ⟨update s.node i ⟨(s.node i).without (.send, j), (s.node i).next, (s.node i).mem⟩,
        fun i' j' => if i' = i ∧ j' = j then s.chan i j ++ (s.node i).mem.read op.slice
          else s.chan i' j'⟩ := by
  have hland : op.land ((s.node i).mem.read op.slice) (s.node i).mem = (s.node i).mem := by
    have hdir : op.dir = .send := congrArg Prod.fst (Node.key_of_find h)
    rw [Xfer.land, hdir]
  refine ⟨_, by rw [Payload, Node.offer?, h]; rfl, play_update ?_, fun i' j' => ?_⟩
  · rw [Node.play_xfer h]
    exact congrArg (fun m => some (Node.mk _ _ m)) hland
  · by_cases hc : i' = i ∧ j' = j
    · obtain ⟨rfl, rfl⟩ := hc
      simp [Label.flow]
    · simp [Label.flow, hc]

theorem step_pull (h : (s.node j).find (.recv, i) = some op)
    (hlen : op.slice.len ≤ (s.chan i j).length) :
    step s (.pull i j)
      ⟨update s.node j ⟨(s.node j).without (.recv, i), (s.node j).next,
          (s.node j).mem.write op.slice ((s.chan i j).take op.slice.len)⟩,
        fun i' j' => if i' = i ∧ j' = j then (s.chan i j).drop op.slice.len
          else s.chan i' j'⟩ := by
  have hland (d : List α) : op.land d (s.node j).mem = (s.node j).mem.write op.slice d := by
    have hdir : op.dir = .recv := congrArg Prod.fst (Node.key_of_find h)
    rw [Xfer.land, hdir]
  refine ⟨_, ⟨op, h, hlen, rfl⟩, play_update ?_, fun i' j' => ?_⟩
  · rw [Node.play_xfer h, hland]
  · by_cases hc : i' = i ∧ j' = j
    · obtain ⟨rfl, rfl⟩ := hc
      simp [Label.flow, List.length_take_of_le hlen]
    · simp [Label.flow, hc]

/-! ### A bound -/

/-- The steps before the processes in `S`. -/
def remaining (S : Finset ι) (s : Fifo ι β α) : ℕ := ∑ r ∈ S, (s.node r).steps

/-- **Every step takes one of the steps before a process**; the others stand still. -/
theorem remaining_lt {S : Finset ι} {a : Label ι} (h : step s a t)
    (hS : ∀ r, r ∉ S → (s.node r).Finished) : t.remaining S < s.remaining S := by
  obtain ⟨r, hothers, hr⟩ := step_cases h
  have hlt : (t.node r).steps < (s.node r).steps := by
    rcases hr with ⟨-, hlocal, -⟩ | ⟨k, op, m, -, hop, hnode, -⟩
    · exact Node.steps_local? hlocal
    · rw [hnode]
      exact Node.steps_without hop m
  have hmem : r ∈ S := by
    by_contra hnot
    obtain ⟨b, hpending, hnext⟩ := hS r hnot
    have hzero : (s.node r).steps = 0 := by
      rw [Node.steps, hpending, hnext]
      rfl
    exact absurd hlt (hzero ▸ Nat.not_lt_zero _)
  refine Finset.sum_lt_sum (fun q _ => ?_) ⟨r, hmem, hlt⟩
  by_cases hq : q = r
  · exact hq ▸ hlt.le
  · rw [hothers q hq]

end Fifo

end MiniCcl
