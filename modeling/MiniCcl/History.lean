/-
MiniCcl/History.lean

What the processes of a network have done so far, and counting in it.

A process with one thread takes its actions in the order of its program.  In every
state that a network of such processes can reach over channels, each process has done
a prefix of its actions (`Fifo.History`), and what a channel holds is what its writer
has sent less what its reader has received.  So a `Recv` that has returned says that
a certain number of cells has been sent.

`Covered u v c l` compares two measures of actions on all prefixes of `l`: what has
been spent, `u`, has been earned, `v`, up to a credit `c`.  Its rules follow the way
in which a program is put together.
-/
import MiniCcl.Script
import Mathlib.Algebra.Ring.Nat

namespace MiniCcl

variable {ι β α : Type*}

/-! ### Processes with one thread -/

namespace Prog

/-- At most one transfer is outstanding at a time. -/
def SingleThreaded : Prog ι β α → Prop
  | ret _ => True
  | act _ k => k.SingleThreaded
  | par ops k => ops.length ≤ 1 ∧ ∀ rs, (k rs).SingleThreaded

theorem SingleThreaded.bind {p : Prog ι β α} {g : Bool → Prog ι β α}
    (hp : p.SingleThreaded) (hg : ∀ b, (g b).SingleThreaded) : (p.bind g).SingleThreaded := by
  induction p with
  | ret b => exact hg b
  | act f k ih => exact ih hp
  | par ops k ih => exact ⟨hp.1, fun rs => ih rs (hp.2 rs)⟩

theorem SingleThreaded.andThen {p q : Prog ι β α} (hp : p.SingleThreaded)
    (hq : q.SingleThreaded) : (p.andThen q).SingleThreaded := by
  refine hp.bind fun b => ?_
  cases b
  · exact trivial
  · exact hq

@[simp] theorem singleThreaded_send (peer : ι) (s : Slice β) (width : ℕ) :
    (send peer s width : Prog ι β α).SingleThreaded :=
  ⟨le_rfl, fun _ => trivial⟩

@[simp] theorem singleThreaded_recv (peer : ι) (s : Slice β) (width : ℕ) :
    (recv peer s width : Prog ι β α).SingleThreaded :=
  ⟨le_rfl, fun _ => trivial⟩

theorem singleThreaded_forEach {γ : Type*} {xs : List γ} {body : γ → Prog ι β α}
    (h : ∀ x ∈ xs, (body x).SingleThreaded) : (forEach xs body).SingleThreaded := by
  induction xs with
  | nil => exact trivial
  | cons x xs ih =>
      exact (h x List.mem_cons_self).andThen (ih fun y hy => h y (List.mem_cons_of_mem _ hy))

theorem singleThreaded_inTurn {ps : List (Prog ι β α)} (h : ∀ p ∈ ps, p.SingleThreaded) :
    (inTurn ps).SingleThreaded := by
  induction ps with
  | nil => exact trivial
  | cons p ps ih =>
      exact (h p List.mem_cons_self).bind fun _ => ih fun q hq => h q (List.mem_cons_of_mem _ hq)

end Prog

namespace Node

variable [DecidableEq ι]

/-- A process with one thread that has the actions `rest` before it. -/
structure Follows (x : Node ι β α) (rest : List (Local ι β α)) : Prop where
  performs : Performs x.pending x.next rest
  pending : x.pending.length ≤ 1
  next : x.next.SingleThreaded

/-- A local step is the next action, or starts a transfer. -/
theorem Follows.local? {x y : Node ι β α} {rest : List (Local ι β α)} (h : x.Follows rest)
    (hy : x.local? = some y) :
    (∃ f rest', rest = .act f :: rest' ∧ y.Follows rest' ∧ y.mem = f x.mem) ∨
      y.Follows rest ∧ y.mem = x.mem := by
  obtain ⟨pending, next, mem⟩ := x
  obtain ⟨hperforms, -, hnext⟩ := h
  cases pending with
  | cons z zs => cases next <;> cases hy
  | nil =>
      cases next with
      | ret b => cases hy
      | act f k =>
          cases hy
          cases hperforms with
          | act hk => exact .inl ⟨f, _, rfl, ⟨hk, Nat.zero_le 1, hnext⟩, rfl⟩
          | xfer hx _ => cases hx
      | par ops k =>
          cases hy
          cases hperforms with
          | spawn hops => exact .inr ⟨⟨hops, hnext.1, hnext.2 _⟩, rfl⟩
          | xfer hx _ => cases hx

/-- A transfer that completes is the next action. -/
theorem Follows.find {x : Node ι β α} {rest : List (Local ι β α)} (h : x.Follows rest)
    {k : Dir × ι} {op : Xfer ι β} (hop : x.find k = some op) (m : Mem β α) :
    ∃ rest', rest = .xfer op :: rest' ∧ Follows ⟨x.without k, x.next, m⟩ rest' := by
  obtain ⟨pending, next, mem⟩ := x
  obtain ⟨hperforms, hpending, hnext⟩ := h
  match pending, hpending with
  | [], _ => cases hop
  | [z], _ =>
      have hmem : op = z := List.mem_singleton.mp (mem_of_find hop)
      subst hmem
      have hkey : op.key = k := key_of_find hop
      cases hperforms with
      | @xfer _ _ x rest' hx hrest =>
          have hxop : x = op := List.mem_singleton.mp (List.mem_of_find?_eq_some hx)
          subst hxop
          refine ⟨rest', rfl, ?_, List.length_eraseP_le, hnext⟩
          rw [without, ← hkey]
          exact hrest

end Node

/-! ### Measures of actions -/

/-- The sum of a measure over a list of actions. -/
def tally {γ : Type*} (w : γ → ℕ) (l : List γ) : ℕ := (l.map w).sum

section Tally

variable {γ : Type*} {u v w : γ → ℕ} {l l' : List γ}

@[simp] theorem tally_nil (w : γ → ℕ) : tally w [] = 0 := rfl

@[simp] theorem tally_cons (w : γ → ℕ) (e : γ) (l : List γ) :
    tally w (e :: l) = w e + tally w l := by
  rw [tally, List.map_cons, List.sum_cons, tally]

@[simp] theorem tally_append (w : γ → ℕ) (l l' : List γ) :
    tally w (l ++ l') = tally w l + tally w l' := by
  rw [tally, List.map_append, List.sum_append, tally, tally]

theorem tally_map {δ : Type*} (w : δ → ℕ) (f : γ → δ) (l : List γ) :
    tally w (l.map f) = tally (fun e => w (f e)) l := by
  rw [tally, List.map_map]
  rfl

theorem tally_zero (l : List γ) : tally (fun _ => 0) l = 0 := by
  induction l with
  | nil => rfl
  | cons e l ih => rw [tally_cons, ih]

/-- How often `e` comes up. -/
theorem tally_count [DecidableEq γ] (e : γ) (l : List γ) :
    tally (fun a => if e = a then 1 else 0) l = l.count e := by
  induction l with
  | nil => rfl
  | cons a l ih =>
      rw [tally_cons, ih, List.count_cons, Nat.add_comm]
      congr 1
      exact if_congr (eq_comm.trans beq_iff_eq.symm) rfl rfl

theorem tally_flatten_replicate (w : γ → ℕ) (k : ℕ) (l : List γ) :
    tally w (List.replicate k l).flatten = k * tally w l := by
  induction k with
  | zero => exact (Nat.zero_mul _).symm
  | succ k ih =>
      rw [List.replicate_succ, List.flatten_cons, tally_append, ih, Nat.succ_mul, Nat.add_comm]

theorem tally_mul (k : ℕ) (w : γ → ℕ) (l : List γ) :
    tally (fun e => k * w e) l = k * tally w l := by
  induction l with
  | nil => rfl
  | cons e l ih => rw [tally_cons, tally_cons, ih, Nat.mul_add]

theorem tally_le_of_prefix (w : γ → ℕ) (h : l <+: l') : tally w l ≤ tally w l' := by
  obtain ⟨rest, rfl⟩ := h
  rw [tally_append]
  exact Nat.le_add_right _ _

/-- In every prefix of `l`, what `u` spends has been earned by `v`, up to the
credit `c`. -/
def Covered (u v : γ → ℕ) (c : ℕ) (l : List γ) : Prop :=
  ∀ p, p <+: l → tally u p ≤ tally v p + c

/-- The credit is enough. -/
theorem Covered.of_le {c : ℕ} (h : tally u l ≤ c) : Covered u v c l := by
  intro p hp
  have hle := tally_le_of_prefix u hp
  omega

/-- What is left of the first part is the credit of the second. -/
theorem Covered.append {c d : ℕ} (h : Covered u v c l) (h' : Covered u v d l')
    (hcredit : tally u l + d ≤ tally v l + c) : Covered u v c (l ++ l') := by
  intro p hp
  rcases List.prefix_or_prefix_of_prefix hp (List.prefix_append l l') with hfirst | ⟨p', rfl⟩
  · exact h p hfirst
  · have hrest := h' p' ((List.prefix_append_right_inj l).mp hp)
    rw [tally_append, tally_append]
    omega

/-- The first part earns what the second spends. -/
theorem Covered.of_before (h : tally u l = 0) (h' : tally u l' ≤ tally v l) :
    Covered u v 0 (l ++ l') := by
  refine Covered.append (.of_le h.le) (.of_le le_rfl) ?_
  rwa [h, Nat.zero_add]

theorem Covered.flatten_replicate {c : ℕ} (h : Covered u v c l) (hall : tally u l ≤ tally v l)
    (k : ℕ) : Covered u v c (List.replicate k l).flatten := by
  induction k with
  | zero =>
      refine .of_le ?_
      exact Nat.zero_le c
  | succ k ih =>
      rw [List.replicate_succ, List.flatten_cons]
      exact h.append ih (Nat.add_le_add_right hall c)

end Tally

/-! ### Histories -/

namespace Local

variable [DecidableEq ι]

/-- The cells that an action sends to `j`. -/
def sent (j : ι) : Local ι β α → ℕ
  | .xfer x => if x.key = (.send, j) then x.slice.len else 0
  | .act _ => 0

/-- The cells that an action receives from `i`. -/
def received (i : ι) : Local ι β α → ℕ
  | .xfer x => if x.key = (.recv, i) then x.slice.len else 0
  | .act _ => 0

variable {x : Xfer ι β} {i j : ι}

theorem sent_of_send (h : x.key = (.send, j)) (j' : ι) :
    (xfer x : Local ι β α).sent j' = if j' = j then x.slice.len else 0 := by
  simp only [sent, h, Prod.mk.injEq, true_and, eq_comm]

theorem received_of_send (h : x.key = (.send, j)) (i' : ι) :
    (xfer x : Local ι β α).received i' = 0 := by
  simp only [received, h, Prod.mk.injEq, reduceCtorEq, false_and, if_false]

theorem sent_of_recv (h : x.key = (.recv, i)) (j' : ι) :
    (xfer x : Local ι β α).sent j' = 0 := by
  simp only [sent, h, Prod.mk.injEq, reduceCtorEq, false_and, if_false]

theorem received_of_recv (h : x.key = (.recv, i)) (i' : ι) :
    (xfer x : Local ι β α).received i' = if i' = i then x.slice.len else 0 := by
  simp only [received, h, Prod.mk.injEq, true_and, eq_comm]

/-- What an action adds to the counter of block `b`. -/
def gain (b : β) : Local ι β ℕ → ℕ
  | .xfer _ => 0
  | .act f => f (fun _ _ => 0) b 0

/-- The action only adds to the counter of block `b`. -/
def Counts (b : β) : Local ι β ℕ → Prop
  | .xfer x => x.dir = .recv → x.slice.buf ≠ b
  | .act f => ∀ m, f m b 0 = m b 0 + gain b (.act f : Local ι β ℕ)

end Local

/-- The memory `m` results from the actions `l`, whatever their receives have brought. -/
inductive Replays [DecidableEq β] (m₀ : Mem β α) : List (Local ι β α) → Mem β α → Prop
  | nil : Replays m₀ [] m₀
  | act {l : List (Local ι β α)} {m : Mem β α} (f : Mem β α → Mem β α) :
      Replays m₀ l m → Replays m₀ (l ++ [.act f]) (f m)
  | xfer {l : List (Local ι β α)} {m : Mem β α} (x : Xfer ι β) (d : List α) :
      Replays m₀ l m → Replays m₀ (l ++ [.xfer x]) (x.land d m)

theorem Replays.counter [DecidableEq β] {m₀ m : Mem β ℕ} {l : List (Local ι β ℕ)} {b : β}
    (h : Replays m₀ l m) (hcounts : ∀ e ∈ l, e.Counts b) :
    m b 0 = m₀ b 0 + tally (Local.gain b) l := by
  induction h with
  | nil => rfl
  | @act l m f h ih =>
      have hf : (Local.act f : Local ι β ℕ).Counts b :=
        hcounts _ (List.mem_append_right l List.mem_cons_self)
      rw [hf m, ih fun e he => hcounts e (List.mem_append_left _ he), tally_append, tally_cons,
        tally_nil, Nat.add_zero, Nat.add_assoc]
  | @xfer l m x d h ih =>
      have hx : (Local.xfer x : Local ι β ℕ).Counts b :=
        hcounts _ (List.mem_append_right l List.mem_cons_self)
      have hland : x.land d m b 0 = m b 0 := by
        unfold Xfer.land
        cases hdir : x.dir with
        | send => rfl
        | recv => exact Mem.write_of_not_has fun hhas => hx hdir hhas.1.symm
      rw [hland, ih fun e he => hcounts e (List.mem_append_left _ he), tally_append, tally_cons,
        tally_nil]
      rfl

namespace Fifo

variable [DecidableEq ι] [DecidableEq β] {L : ι → List (Local ι β α)} {m : ι → Mem β α}
  {s t : Fifo ι β α} {done : ι → List (Local ι β α)}

/-- Of its actions `L r`, each process `r` has done `done r`. -/
structure History (L : ι → List (Local ι β α)) (m : ι → Mem β α) (s : Fifo ι β α)
    (done : ι → List (Local ι β α)) : Prop where
  follows : ∀ r, ∃ rest, L r = done r ++ rest ∧ (s.node r).Follows rest
  replays : ∀ r, Replays (m r) (done r) (s.node r).mem
  chan : ∀ i j, (s.chan i j).length + tally (Local.received i) (done j)
    = tally (Local.sent j) (done i)

theorem History.init {P : ι → Prog ι β α} (hperforms : ∀ r, Performs [] (P r) (L r))
    (hsingle : ∀ r, (P r).SingleThreaded) : History L m (Fifo.init P m) fun _ => [] where
  follows r := ⟨L r, rfl, hperforms r, Nat.zero_le 1, hsingle r⟩
  replays _ := .nil
  chan _ _ := rfl

omit [DecidableEq β] in
theorem tally_update (w : Local ι β α → ℕ) (r j : ι) (e : Local ι β α) :
    tally w (Function.update done r (done r ++ [e]) j)
      = tally w (done j) + if j = r then w e else 0 := by
  by_cases hj : j = r
  · subst hj
    rw [Function.update_self, if_pos rfl, tally_append, tally_cons, tally_nil, Nat.add_zero]
  · rw [Function.update_of_ne hj, if_neg hj, Nat.add_zero]

/-- Process `r` does its next action `e`. -/
theorem History.advance (h : History L m s done) {r : ι} {e : Local ι β α}
    {rest : List (Local ι β α)} (hrest : L r = done r ++ e :: rest)
    (hfollows : (t.node r).Follows rest) (hreplays : Replays (m r) (done r ++ [e]) (t.node r).mem)
    (hothers : ∀ q, q ≠ r → t.node q = s.node q)
    (hchan : ∀ i j, (t.chan i j).length + (if j = r then e.received i else 0)
      = (s.chan i j).length + if i = r then e.sent j else 0) :
    History L m t (Function.update done r (done r ++ [e])) where
  follows q := by
    by_cases hq : q = r
    · subst hq
      refine ⟨rest, ?_, hfollows⟩
      rw [Function.update_self, List.append_assoc]
      exact hrest
    · rw [Function.update_of_ne hq, hothers q hq]
      exact h.follows q
  replays q := by
    by_cases hq : q = r
    · subst hq
      rw [Function.update_self]
      exact hreplays
    · rw [Function.update_of_ne hq, hothers q hq]
      exact h.replays q
  chan i j := by
    have hold := h.chan i j
    have hnew := hchan i j
    rw [tally_update, tally_update]
    omega

/-- Process `r` completes the transfer `op`. -/
theorem History.complete (h : History L m s done) {r : ι} {k : Dir × ι} {op : Xfer ι β}
    {d : List α} (hop : (s.node r).find k = some op)
    (hr : (s.node r).play d (.xfer k) = some (t.node r))
    (hothers : ∀ q, q ≠ r → t.node q = s.node q)
    (hchan : ∀ i j, (t.chan i j).length
        + (if j = r then (Local.xfer op : Local ι β α).received i else 0)
      = (s.chan i j).length + if i = r then (Local.xfer op : Local ι β α).sent j else 0) :
    ∃ done', History L m t done' := by
  rw [Node.play_xfer hop] at hr
  have hnode := (Option.some.inj hr).symm
  obtain ⟨rest, hrest, hfollows⟩ := h.follows r
  obtain ⟨rest', rfl, hnext⟩ := hfollows.find hop (op.land d (s.node r).mem)
  rw [← hnode] at hnext
  refine ⟨_, h.advance hrest hnext ?_ hothers hchan⟩
  rw [hnode]
  exact .xfer op d (h.replays r)

/-- Process `r` takes a local step: an action, or the start of a batch, which leaves
nothing done yet. -/
theorem History.act (h : History L m s done) {r : ι} (hr : (s.node r).local? = some (t.node r))
    (hothers : ∀ q, q ≠ r → t.node q = s.node q) (hchan : t.chan = s.chan) :
    ∃ done', History L m t done' := by
  obtain ⟨rest, hrest, hfollows⟩ := h.follows r
  rcases hfollows.local? hr with ⟨f, rest', rfl, hnext, hmem⟩ | ⟨hnext, hmem⟩
  · refine ⟨_, h.advance hrest hnext ?_ hothers fun i j => ?_⟩
    · rw [hmem]
      exact .act f (h.replays r)
    · rw [hchan]
      show _ + (if j = r then 0 else 0) = _ + if i = r then 0 else 0
      rw [ite_self, ite_self]
  · refine ⟨done, fun q => ?_, fun q => ?_, fun i j => ?_⟩
    · by_cases hq : q = r
      · subst hq
        exact ⟨rest, hrest, hnext⟩
      · rw [hothers q hq]
        exact h.follows q
    · by_cases hq : q = r
      · subst hq
        rw [hmem]
        exact h.replays q
      · rw [hothers q hq]
        exact h.replays q
    · rw [hchan]
      exact h.chan i j

/-- In a step over channels one process plays a role, and the others are idle. -/
theorem play_one {r : ι} {k : Role ι} {d : List α}
    (hplay : ∀ q, (s.node q).play d (if q = r then k else .idle) = some (t.node q)) :
    (s.node r).play d k = some (t.node r) ∧ ∀ q, q ≠ r → t.node q = s.node q := by
  constructor
  · have hr := hplay r
    rwa [if_pos rfl] at hr
  · intro q hq
    have hidle := hplay q
    rw [if_neg hq] at hidle
    exact (Option.some.inj hidle).symm

/-- **One step adds at most one action to the history.** -/
theorem History.step {a : Label ι} (h : History L m s done) (hstep : Fifo.step s a t) :
    ∃ done', History L m t done' := by
  obtain ⟨d, hd, hplay, hflow⟩ := hstep
  cases a with
  | act r =>
      obtain ⟨hr, hothers⟩ := play_one hplay
      exact h.act hr hothers (funext fun i => funext fun j => hflow i j)
  | push i j =>
      obtain ⟨op, hop, rfl⟩ := Option.map_eq_some_iff.mp hd
      obtain ⟨hi, hothers⟩ := play_one hplay
      have hkey : op.key = (.send, j) := Node.key_of_find hop
      refine h.complete hop hi hothers fun i' j' => ?_
      rw [hflow, Label.flow, Local.received_of_send hkey, Local.sent_of_send hkey, ite_self,
        ← ite_and]
      by_cases hchan : i' = i ∧ j' = j
      · rw [if_pos hchan, if_pos hchan, List.length_append, Mem.length_read]
        rfl
      · rw [if_neg hchan, if_neg hchan]
  | pull i j =>
      obtain ⟨op, hop, hlen, rfl⟩ := hd
      obtain ⟨hj, hothers⟩ := play_one hplay
      have hkey : op.key = (.recv, i) := Node.key_of_find hop
      refine h.complete hop hj hothers fun i' j' => ?_
      rw [hflow, Label.flow, Local.received_of_recv hkey, Local.sent_of_recv hkey, ite_self,
        ← ite_and]
      by_cases hchan : i' = i ∧ j' = j
      · obtain ⟨rfl, rfl⟩ := hchan
        rw [if_pos ⟨rfl, rfl⟩, if_pos ⟨rfl, rfl⟩, List.length_drop,
          List.length_take_of_le hlen, Nat.sub_add_cancel hlen]
        rfl
      · rw [if_neg hchan, if_neg fun h => hchan h.symm]

/-- Every state that can be reached has a history. -/
theorem exists_history {P : ι → Prog ι β α} (hperforms : ∀ r, Performs [] (P r) (L r))
    (hsingle : ∀ r, (P r).SingleThreaded) (h : Fifo.step.Reaches (Fifo.init P m) s) :
    ∃ done, History L m s done := by
  induction h with
  | refl => exact ⟨_, .init hperforms hsingle⟩
  | tail _ hstep ih =>
      obtain ⟨done, hdone⟩ := ih
      obtain ⟨a, hstep⟩ := hstep
      exact hdone.step hstep

/-- What has been received has been sent. -/
theorem History.received_le_sent (h : History L m s done) (i j : ι) :
    tally (Local.received i) (done j) ≤ tally (Local.sent j) (done i) :=
  Nat.le_of_add_left_le (h.chan i j).le

theorem History.prefix_actions (h : History L m s done) (r : ι) : done r <+: L r := by
  obtain ⟨rest, hrest, -⟩ := h.follows r
  exact ⟨rest, hrest.symm⟩

/-- A process that has returned has done all its actions. -/
theorem History.eq_of_returned (h : History L m s done) {r : ι} {b : Bool}
    (hr : (s.node r).Returned b) : done r = L r := by
  obtain ⟨rest, hrest, hfollows⟩ := h.follows r
  have hperforms := hfollows.performs
  rw [hr.1, hr.2] at hperforms
  cases hperforms with
  | done => rw [hrest, List.append_nil]
  | xfer hx _ => cases hx

theorem History.counter {L : ι → List (Local ι β ℕ)} {m : ι → Mem β ℕ} {s : Fifo ι β ℕ}
    {done : ι → List (Local ι β ℕ)} (h : History L m s done) {b : β} {r : ι}
    (hcounts : ∀ e ∈ L r, e.Counts b) :
    (s.node r).mem b 0 = m r b 0 + tally (Local.gain b) (done r) :=
  (h.replays r).counter fun e he => hcounts e ((h.prefix_actions r).subset he)

end Fifo

end MiniCcl
