/-
MiniCcl/Position.lean

Where a process stands in its program, when its threads may be many.

A process with several threads does not take its actions in one order, so what it has
done is not a prefix of a list.  It is still true that one batch of transfers is joined
before the next begins: a program is a list of batches (`Prog.batches`), and a process is
between two of them or inside one (`Node.Within`).

What is before a process is `Node.todo`.  At a boundary between two batches either all that
follows is before the process, or nothing else is (`Within.cut`).  Over
channels, what is in transit from `i` to `j` and what `i` has yet to send is what `j` has
yet to receive (`Fifo.Balanced`); so what one process has received tells where another one
stands.
-/
import MiniCcl.History
import MiniCcl.Schedule
import Mathlib.Algebra.Order.BigOperators.Group.List
import Mathlib.Algebra.Order.Ring.Nat
import Mathlib.Data.List.Infix

namespace MiniCcl

variable {ι β α : Type*}

/-! ### Batches -/

namespace Prog

/-- The batches of a program whose transfers all succeed; a computation is a batch. -/
def batches : Prog ι β α → List (List (Local ι β α))
  | ret _ => []
  | act f k => [.act f] :: k.batches
  | par ops k => ops.map .xfer :: (k (ops.map fun _ => true)).batches

/-- What the program returns then. -/
def outcome : Prog ι β α → Bool
  | ret ok => ok
  | act _ k => k.outcome
  | par ops k => (k (ops.map fun _ => true)).outcome

theorem batches_bind (p : Prog ι β α) (g : Bool → Prog ι β α) :
    (p.bind g).batches = p.batches ++ (g p.outcome).batches := by
  induction p with
  | ret ok => rfl
  | act f k ih => exact congrArg (List.cons _) ih
  | par ops k ih => exact congrArg (List.cons _) (ih _)

/-- A program with one thread has batches of at most one action. -/
theorem SingleThreaded.length_le_one {p : Prog ι β α} (h : p.SingleThreaded) :
    ∀ b ∈ p.batches, b.length ≤ 1 := by
  induction p with
  | ret ok => exact fun b hb => absurd hb List.not_mem_nil
  | act f k ih => exact List.forall_mem_cons.mpr ⟨le_rfl, ih h⟩
  | par ops k ih =>
      refine List.forall_mem_cons.mpr ⟨?_, ih _ (h.2 _)⟩
      rw [List.length_map]
      exact h.1

end Prog

/-- What is left of a list of small pieces is a list of small pieces. -/
theorem exists_suffix_of_flatten {γ : Type*} {B : List (List γ)} (hB : ∀ b ∈ B, b.length ≤ 1)
    {l₁ l₂ : List γ} (h : B.flatten = l₁ ++ l₂) : ∃ C, C <:+ B ∧ C.flatten = l₂ := by
  induction B generalizing l₁ with
  | nil => exact ⟨[], List.suffix_rfl, (List.append_eq_nil_iff.mp h.symm).2.symm⟩
  | cons b B ih =>
      have htail : ∀ b' ∈ B, b'.length ≤ 1 := fun b' hb' => hB b' (List.mem_cons_of_mem b hb')
      have hlen := hB b List.mem_cons_self
      match b, hlen, l₁, h with
      | [], _, _, h =>
          obtain ⟨C, hC, hflat⟩ := ih htail h
          exact ⟨C, hC.trans (List.suffix_cons [] B), hflat⟩
      | [a], _, [], h => exact ⟨[a] :: B, List.suffix_rfl, h⟩
      | [a], _, _ :: l₁, h =>
          obtain ⟨C, hC, hflat⟩ := ih htail (List.cons.inj h).2
          exact ⟨C, hC.trans (List.suffix_cons [a] B), hflat⟩

theorem perm_eraseP_of_find? {γ : Type*} {q : γ → Bool} {a : γ} {l : List γ}
    (h : l.find? q = some a) : (a :: l.eraseP q).Perm l := by
  obtain ⟨ha, l₁, l₂, rfl, hl₁⟩ := List.find?_eq_some_iff_append.mp h
  have hfirst : ∀ b ∈ l₁, ¬ q b = true := fun b hb => by simpa using hl₁ b hb
  rw [List.eraseP_append_right _ hfirst, List.eraseP_cons_of_pos ha]
  exact List.perm_middle.symm

theorem tally_le_of_sublist {γ : Type*} (w : γ → ℕ) {l l' : List γ} (h : l.Sublist l') :
    tally w l ≤ tally w l' :=
  (h.map w).sum_le_sum fun _ _ => Nat.zero_le _

theorem tally_perm {γ : Type*} (w : γ → ℕ) {l l' : List γ} (h : l.Perm l') :
    tally w l = tally w l' := (h.map w).sum_eq

section Performs

variable [DecidableEq ι] {ops : List (Xfer ι β)} {p : Prog ι β α} {l : List (Local ι β α)}

/-- The actions of a program are those of its batches. -/
theorem Performs.perm (h : Performs ops p l) :
    (ops.map Local.xfer ++ p.batches.flatten).Perm l := by
  induction h with
  | done => exact .refl _
  | act _ ih => exact ih.cons _
  | spawn _ ih => exact ih
  | @xfer ops p x l hx _ ih =>
      exact (((perm_eraseP_of_find? hx).map Local.xfer).symm.append_right _).trans (ih.cons _)

/-- A program with one thread has only one order of its actions. -/
theorem Performs.flatten_batches (h : Performs [] p l) (hp : p.SingleThreaded) :
    p.batches.flatten = l := by
  generalize hops : ([] : List (Xfer ι β)) = ops at h
  suffices hall : ops.length ≤ 1 → ops.map Local.xfer ++ p.batches.flatten = l by
    have hnil := hall (by rw [← hops]; exact Nat.zero_le 1)
    rwa [← hops] at hnil
  clear hops
  induction h with
  | done => exact fun _ => rfl
  | act _ ih => exact fun _ => congrArg (List.cons _) (ih hp (Nat.zero_le 1))
  | spawn _ ih => exact fun _ => ih (hp.2 _) hp.1
  | @xfer ops p x l hx _ ih =>
      intro hlen
      match ops, hlen with
      | [y], _ =>
          have hxy : x = y := List.mem_singleton.mp (List.mem_of_find?_eq_some hx)
          subst hxy
          refine congrArg (List.cons _) ?_
          have hrest := ih hp (List.length_eraseP_le.trans le_rfl)
          rwa [List.eraseP_cons_of_pos (by simp)] at hrest

end Performs

/-! ### Positions -/

namespace Node

/-- The actions before a process, if its transfers all succeed. -/
def todo (x : Node ι β α) : List (Local ι β α) :=
  x.pending.map .xfer ++ x.next.batches.flatten

/-- The process is in a run of a program with the batches `B`: some are done, and
`current` is not yet joined. -/
def Within (B : List (List (Local ι β α))) (x : Node ι β α) : Prop :=
  ∃ done current, [] :: B = done ++ current :: x.next.batches ∧
    (x.pending.map .xfer).Sublist current

variable {B : List (List (Local ι β α))} {x y : Node ι β α}

theorem within_start (p : Prog ι β α) (m : Mem β α) : Within p.batches ⟨[], p, m⟩ :=
  ⟨[], [], rfl, .slnil⟩

theorem todo_of_returned {b : Bool} (h : x.Returned b) : x.todo = [] := by
  rw [todo, h.1, h.2]
  rfl

/-- **At a boundary between batches**, all that follows is before the process, or nothing
else is. -/
theorem Within.cut (h : x.Within B) {C : List (List (Local ι β α))} (hC : C <:+ B) :
    C.flatten.Sublist x.todo ∨ x.todo.Sublist C.flatten := by
  obtain ⟨done, current, hB, hpending⟩ := h
  have hC' : C <:+ [] :: B := hC.trans (List.suffix_cons [] B)
  have hnext : current :: x.next.batches <:+ [] :: B := ⟨done, hB.symm⟩
  have hcurrent : x.todo.Sublist (current :: x.next.batches).flatten :=
    hpending.append_right _
  rcases List.suffix_or_suffix_of_suffix hC' hnext with hle | hle
  · rcases List.suffix_cons_iff.mp hle with rfl | hle
    · -- `C` begins with the batch that is not yet joined
      exact .inr hcurrent
    · exact .inl (hle.flatten.sublist.trans (List.sublist_append_right _ _))
  · exact .inr (hcurrent.trans hle.flatten.sublist)

/-- A local step is a computation, or the start of a batch. -/
theorem local?_cases (h : x.local? = some y) :
    (∃ f k m, x = ⟨[], .act f k, m⟩ ∧ y = ⟨[], k, f m⟩) ∨
      ∃ ops k m, x = ⟨[], .par ops k, m⟩ ∧ y = ⟨ops, k (ops.map fun _ => true), m⟩ := by
  obtain ⟨pending, next, m⟩ := x
  cases pending with
  | cons z zs => cases next <;> cases h
  | nil =>
      cases next with
      | ret ok => cases h
      | act f k => exact .inl ⟨f, k, m, rfl, (Option.some.inj h).symm⟩
      | par ops k => exact .inr ⟨ops, k, m, rfl, (Option.some.inj h).symm⟩

theorem Within.local? (h : x.Within B) (hy : x.local? = some y) : y.Within B := by
  obtain ⟨done, current, hB, -⟩ := h
  rcases local?_cases hy with ⟨f, k, m, rfl, rfl⟩ | ⟨ops, k, m, rfl, rfl⟩
  · exact ⟨done ++ [current], [.act f], hB.trans (List.append_cons done current _),
      List.nil_sublist _⟩
  · exact ⟨done ++ [current], ops.map .xfer, hB.trans (List.append_cons done current _), .refl _⟩

/-- A local step transfers nothing. -/
theorem todo_local? {w : Local ι β α → ℕ} (hw : ∀ f, w (.act f) = 0) (hy : x.local? = some y) :
    tally w y.todo = tally w x.todo := by
  rcases local?_cases hy with ⟨f, k, m, rfl, rfl⟩ | ⟨ops, k, m, rfl, rfl⟩
  · show tally w k.batches.flatten = tally w (.act f :: k.batches.flatten)
    rw [tally_cons, hw, Nat.zero_add]
  · rfl

variable [DecidableEq ι] {k : Dir × ι} {op : Xfer ι β}

theorem Within.without (h : x.Within B) (k : Dir × ι) (m : Mem β α) :
    Within B ⟨x.without k, x.next, m⟩ := by
  obtain ⟨done, current, hB, hpending⟩ := h
  exact ⟨done, current, hB, (List.eraseP_sublist.map _).trans hpending⟩

/-- An outstanding transfer is one of the program. -/
theorem Within.mem_of_find (h : x.Within B) (hop : x.find k = some op) :
    .xfer op ∈ B.flatten := by
  obtain ⟨done, current, hB, hpending⟩ := h
  have hcurrent : .xfer op ∈ current :=
    hpending.subset (List.mem_map_of_mem (Node.mem_of_find hop))
  have hflatten : B.flatten = ([] :: B).flatten := rfl
  rw [hflatten, hB]
  exact List.mem_flatten.mpr ⟨current, List.mem_append_right _ List.mem_cons_self, hcurrent⟩

/-- A transfer that completes is no longer before the process. -/
theorem todo_without (hop : x.find k = some op) (m : Mem β α) :
    (.xfer op :: (⟨x.without k, x.next, m⟩ : Node ι β α).todo).Perm x.todo :=
  ((perm_eraseP_of_find? hop).map Local.xfer).append_right _

end Node

/-! ### Balance -/

namespace Event

variable [DecidableEq ι] {p q : ι} {s d : Slice β} (w : ℕ)

theorem tally_sent (i j : ι) :
    tally (Local.sent j) ((comm p s q d w : Event ι β α).project i)
      = if i = p ∧ j = q then s.len else 0 := by
  rw [project]
  by_cases hi : i = p
  · rw [if_pos hi, tally_cons, tally_nil, Nat.add_zero, Local.sent_of_send (j := q) rfl]
    exact if_congr (and_iff_right hi).symm rfl rfl
  · have hno : ¬ (i = p ∧ j = q) := fun h => hi h.1
    rw [if_neg hi, if_neg hno]
    split_ifs
    · rw [tally_cons, tally_nil, Local.sent_of_recv (i := p) rfl]
    · rfl

theorem tally_received (hne : p ≠ q) (i j : ι) :
    tally (Local.received i) ((comm p s q d w : Event ι β α).project j)
      = if i = p ∧ j = q then d.len else 0 := by
  rw [project]
  by_cases hp : j = p
  · have hno : ¬ (i = p ∧ j = q) := fun h => hne (hp.symm.trans h.2)
    rw [if_pos hp, if_neg hno, tally_cons, tally_nil, Local.received_of_send (j := q) rfl]
  · rw [if_neg hp]
    by_cases hq : j = q
    · rw [if_pos hq, tally_cons, tally_nil, Nat.add_zero, Local.received_of_recv (i := p) rfl]
      exact if_congr (and_iff_left hq).symm rfl rfl
    · have hno : ¬ (i = p ∧ j = q) := fun h => hq h.2
      rw [if_neg hq, if_neg hno]
      rfl

theorem tally_act {v : Local ι β α → ℕ} {r : ι} {f : Mem β α → Mem β α} (hv : v (.act f) = 0)
    (i : ι) : tally v ((act r f : Event ι β α).project i) = 0 := by
  rw [project]
  split_ifs
  · rw [tally_cons, hv, tally_nil]
  · rfl

end Event

namespace Script

variable [DecidableEq ι] {R : ι → Prop} {C : Script ι β α}

/-- What a script sends from `i` to `j` is received there. -/
theorem tally_sent_eq_received (hC : ∀ e ∈ C, e.Wf R) (i j : ι) :
    tally (Local.sent j) (project i C) = tally (Local.received i) (project j C) := by
  induction C with
  | nil => rfl
  | cons e C ih =>
      rw [project_cons, project_cons, tally_append, tally_append,
        ih fun e' he' => hC e' (List.mem_cons_of_mem e he')]
      congr 1
      have he := hC e List.mem_cons_self
      cases e with
      | act r f => rw [Event.tally_act rfl, Event.tally_act rfl]
      | comm p s q d w =>
          obtain ⟨-, -, hne, hlen⟩ := he
          rw [Event.tally_sent, Event.tally_received w hne, hlen]

end Script

namespace Fifo

variable [DecidableEq ι] {s t : Fifo ι β α}

/-- What is in transit from `i` to `j` and what `i` has yet to send is what `j` has yet to
receive. -/
def Balanced (s : Fifo ι β α) : Prop :=
  ∀ i j, (s.chan i j).length + tally (Local.sent j) (s.node i).todo
    = tally (Local.received i) (s.node j).todo

/-- Every process `r` is in a run of a program with the batches `B r`. -/
structure Positions (B : ι → List (List (Local ι β α))) (s : Fifo ι β α) : Prop where
  within : ∀ r, (s.node r).Within (B r)
  balanced : s.Balanced

variable [DecidableEq β] {B : ι → List (List (Local ι β α))}

/-- In a step over channels one process takes a local step, or completes a transfer. -/
theorem step_cases {a : Label ι} (h : Fifo.step s a t) :
    ∃ r, (∀ q, q ≠ r → t.node q = s.node q) ∧
      (a = .act r ∧ (s.node r).local? = some (t.node r) ∧ t.chan = s.chan ∨
        ∃ k op m, a.role r = .xfer k ∧ (s.node r).find k = some op ∧
          t.node r = ⟨(s.node r).without k, (s.node r).next, m⟩ ∧ ∀ i j,
            (t.chan i j).length + (if j = r then Local.received (α := α) i (.xfer op) else 0)
              = (s.chan i j).length + if i = r then Local.sent (α := α) j (.xfer op) else 0) := by
  obtain ⟨d, hd, hplay, hflow⟩ := h
  cases a with
  | act r =>
      obtain ⟨hr, hothers⟩ := play_one hplay
      exact ⟨r, hothers, .inl ⟨rfl, hr, funext fun i => funext fun j => hflow i j⟩⟩
  | push i j =>
      obtain ⟨op, hop, rfl⟩ := Option.map_eq_some_iff.mp hd
      obtain ⟨hi, hothers⟩ := play_one hplay
      rw [Node.play_xfer hop] at hi
      have hkey : op.key = (.send, j) := Node.key_of_find hop
      have hnode := (Option.some.inj hi).symm
      refine ⟨i, hothers, .inr ⟨_, op, _, if_pos rfl, hop, hnode, fun i' j' => ?_⟩⟩
      rw [hflow, Label.flow, Local.received_of_send hkey, Local.sent_of_send hkey, ite_self,
        ← ite_and]
      by_cases hchan : i' = i ∧ j' = j
      · rw [if_pos hchan, if_pos hchan, List.length_append, Mem.length_read]
        rfl
      · rw [if_neg hchan, if_neg hchan]
  | pull i j =>
      obtain ⟨op, hop, hlen, rfl⟩ := hd
      obtain ⟨hj, hothers⟩ := play_one hplay
      rw [Node.play_xfer hop] at hj
      have hkey : op.key = (.recv, i) := Node.key_of_find hop
      have hnode := (Option.some.inj hj).symm
      refine ⟨j, hothers, .inr ⟨_, op, _, if_pos rfl, hop, hnode, fun i' j' => ?_⟩⟩
      rw [hflow, Label.flow, Local.received_of_recv hkey, Local.sent_of_recv hkey, ite_self,
        ← ite_and]
      by_cases hchan : i' = i ∧ j' = j
      · obtain ⟨rfl, rfl⟩ := hchan
        rw [if_pos ⟨rfl, rfl⟩, if_pos ⟨rfl, rfl⟩, List.length_drop,
          List.length_take_of_le hlen, Nat.sub_add_cancel hlen]
        rfl
      · rw [if_neg hchan, if_neg fun h => hchan h.symm]

/-- **One step keeps positions.** -/
theorem Positions.step {a : Label ι} (h : Positions B s) (hstep : Fifo.step s a t) :
    Positions B t := by
  obtain ⟨r, hothers, hr⟩ := step_cases hstep
  constructor
  · intro q
    by_cases hq : q = r
    · subst hq
      rcases hr with ⟨-, hlocal, -⟩ | ⟨k, op, m, -, -, hnode, -⟩
      · exact (h.within q).local? hlocal
      · rw [hnode]
        exact (h.within q).without k m
    · rw [hothers q hq]
      exact h.within q
  · rcases hr with ⟨-, hlocal, hchan⟩ | ⟨k, op, m, -, hop, hnode, hchan⟩
    · have htodo : ∀ (w : Local ι β α → ℕ), (∀ f, w (.act f) = 0) →
          ∀ q, tally w (t.node q).todo = tally w (s.node q).todo := by
        intro w hw q
        by_cases hq : q = r
        · subst hq
          exact Node.todo_local? hw hlocal
        · rw [hothers q hq]
      intro i j
      rw [hchan, htodo _ (fun _ => rfl), htodo _ (fun _ => rfl)]
      exact h.balanced i j
    · have htodo : ∀ (w : Local ι β α → ℕ) q,
          tally w (t.node q).todo + (if q = r then w (.xfer op) else 0)
            = tally w (s.node q).todo := by
        intro w q
        by_cases hq : q = r
        · subst hq
          rw [if_pos rfl, hnode, ← tally_perm w (Node.todo_without hop m), tally_cons,
            Nat.add_comm]
        · rw [if_neg hq, hothers q hq, Nat.add_zero]
      intro i j
      have hbefore := h.balanced i j
      have hsent := htodo (Local.sent j) i
      have hreceived := htodo (Local.received i) j
      have hlen := hchan i j
      omega

/-- Every state that can be reached keeps positions. -/
theorem positions_of_reaches {R : ι → Prop} [DecidablePred R] {P : ι → Prog ι β α}
    {C : Script ι β α} (hP : Schedule R P C) {m : ι → Mem β α}
    (h : Fifo.step.Reaches (Fifo.init (team R P) m) s) :
    Positions (fun r => (team R P r).batches) s := by
  induction h with
  | refl =>
      refine ⟨fun r => Node.within_start (team R P r) (m r), fun i j => ?_⟩
      show 0 + tally _ (team R P i).batches.flatten = tally _ (team R P j).batches.flatten
      have hperm : ∀ r, (team R P r).batches.flatten.Perm (Script.project r C) := fun r =>
        ((hP.awaits_start m).performs r).perm
      rw [tally_perm _ (hperm i), tally_perm _ (hperm j), Script.tally_sent_eq_received hP.wf,
        Nat.zero_add]
  | tail _ hstep ih =>
      obtain ⟨a, hstep⟩ := hstep
      exact ih.step hstep

omit [DecidableEq β] in
/-- What `j` has received tells where `i` stands: if less can still arrive there than `i`
sends after a boundary, `i` is not before that boundary. -/
theorem Positions.todo_sublist (h : Positions B s) {i j : ι} {C : List (List (Local ι β α))}
    (hC : C <:+ B i)
    (hlt : tally (Local.received i) (s.node j).todo < tally (Local.sent j) C.flatten) :
    (s.node i).todo.Sublist C.flatten := by
  rcases (h.within i).cut hC with hle | hle
  · have hbalance := h.balanced i j
    have hsent := tally_le_of_sublist (Local.sent j) hle
    omega
  · exact hle

end Fifo

end MiniCcl
