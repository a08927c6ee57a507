/-
MiniCcl/Process.lean

Processes that fork transfers and join them.

A process alternates between local computation and a *batch* of transfers that
are outstanding at the same time, one per thread; it goes on when all of them
have returned, and may inspect their results.  A blocking call made by a single
thread is a batch of one.

`Prog.RaceFree` says that no two transfers of one batch touch the same cells,
unless both only read them.  `Prog.StaysIn` says which cells a process touches at all.
-/
import MiniCcl.Memory

namespace MiniCcl

/-- Direction of a transfer. -/
inductive Dir
  | send
  | recv
  deriving DecidableEq, Repr

/-- A blocking transfer of a slice to or from a peer; `width` is the number of
bytes of one cell. -/
structure Xfer (ι β : Type*) where
  dir : Dir
  peer : ι
  slice : Slice β
  width : ℕ
  deriving DecidableEq, Repr

variable {ι β α : Type*}

namespace Xfer

/-- What a partner looks for: the direction and the peer. -/
def key (x : Xfer ι β) : Dir × ι := (x.dir, x.peer)

/-- The number of bytes the call asks for. -/
def bytes (x : Xfer ι β) : ℕ := x.slice.len * x.width

/-- The two transfers may be outstanding at once: they only read, or they
touch disjoint slices. -/
def Compatible (x y : Xfer ι β) : Prop :=
  (x.dir = .send ∧ y.dir = .send) ∨ x.slice.Disjoint y.slice

theorem Compatible.symm {x y : Xfer ι β} (h : x.Compatible y) : y.Compatible x := by
  rcases h with ⟨hx, hy⟩ | h
  · exact .inl ⟨hy, hx⟩
  · exact .inr h.symm

theorem Compatible.disjoint_of_recv {x y : Xfer ι β} (h : x.Compatible y)
    (hy : y.dir = .recv) : x.slice.Disjoint y.slice := by
  rcases h with ⟨-, hs⟩ | h
  · rw [hy] at hs; cases hs
  · exact h

/-- The effect of a completed transfer on the memory of the process: a receive
writes the cells `d` that arrived. -/
def land [DecidableEq β] (x : Xfer ι β) (d : List α) (m : Mem β α) : Mem β α :=
  match x.dir with
  | .send => m
  | .recv => m.write x.slice d

theorem Compatible.land_comm [DecidableEq β] {x y : Xfer ι β} (h : x.Compatible y)
    (d e : List α) (m : Mem β α) : y.land e (x.land d m) = x.land d (y.land e m) := by
  cases hx : x.dir with
  | send => simp [land, hx]
  | recv =>
      cases hy : y.dir with
      | send => simp [land, hx, hy]
      | recv =>
          simp only [land, hx, hy]
          exact Mem.write_comm_of_disjoint (h.disjoint_of_recv hy) d e

/-- What is read by a send is not changed by a compatible transfer. -/
theorem Compatible.read_land [DecidableEq β] {x y : Xfer ι β} (h : x.Compatible y)
    (d : List α) (m : Mem β α) : (y.land d m).read x.slice = m.read x.slice := by
  cases hy : y.dir with
  | send => simp [land, hy]
  | recv =>
      simp only [land, hy]
      exact Mem.read_write_of_disjoint (h.disjoint_of_recv hy) d

end Xfer

/-- Programs of a process.  The continuation of a batch gets the results of
its transfers in the order of the list. -/
inductive Prog (ι β α : Type*)
  | ret (ok : Bool)
  | act (f : Mem β α → Mem β α) (k : Prog ι β α)
  | par (ops : List (Xfer ι β)) (k : List Bool → Prog ι β α)

namespace Prog

/-- Run `p`, then go on with its result. -/
def bind : Prog ι β α → (Bool → Prog ι β α) → Prog ι β α
  | ret b, g => g b
  | act f k, g => act f (k.bind g)
  | par ops k, g => par ops fun rs => (k rs).bind g

/-- `if (!p) return false; q` -/
def andThen (p q : Prog ι β α) : Prog ι β α :=
  p.bind fun ok => if ok then q else ret false

/-- A local computation. -/
def doAct (f : Mem β α → Mem β α) : Prog ι β α := act f (ret true)

/-- Concurrent transfers, joined; succeeds if all of them do.  Without any
transfer there is nothing to join. -/
def all : List (Xfer ι β) → Prog ι β α
  | [] => ret true
  | x :: xs => par (x :: xs) fun rs => ret (rs.all id)

/-- `Send` to `peer`, in the calling thread. -/
def send (peer : ι) (s : Slice β) (width : ℕ) : Prog ι β α :=
  all [⟨.send, peer, s, width⟩]

/-- `Recv` from `peer`, in the calling thread. -/
def recv (peer : ι) (s : Slice β) (width : ℕ) : Prog ι β α :=
  all [⟨.recv, peer, s, width⟩]

/-- A loop over `xs` that returns `false` at the first iteration that fails. -/
def forEach {γ : Type*} (xs : List γ) (body : γ → Prog ι β α) : Prog ι β α :=
  xs.foldr (fun x rest => (body x).andThen rest) (ret true)

/-- Calls made one after the other, whatever they return. -/
def inTurn : List (Prog ι β α) → Prog ι β α
  | [] => ret true
  | p :: ps => p.bind fun _ => inTurn ps

@[simp] theorem forEach_nil {γ : Type*} (body : γ → Prog ι β α) :
    forEach [] body = ret true := rfl

@[simp] theorem forEach_cons {γ : Type*} (x : γ) (xs : List γ)
    (body : γ → Prog ι β α) :
    forEach (x :: xs) body = (body x).andThen (forEach xs body) := rfl

/-! ### Races -/

/-- The transfers of every batch are pairwise compatible. -/
def RaceFree : Prog ι β α → Prop
  | ret _ => True
  | act _ k => k.RaceFree
  | par ops k => ops.Pairwise Xfer.Compatible ∧ ∀ rs, (k rs).RaceFree

theorem RaceFree.bind {p : Prog ι β α} {g : Bool → Prog ι β α}
    (hp : p.RaceFree) (hg : ∀ b, (g b).RaceFree) : (p.bind g).RaceFree := by
  induction p with
  | ret b => exact hg b
  | act f k ih => exact ih hp
  | par ops k ih => exact ⟨hp.1, fun rs => ih rs (hp.2 rs)⟩

@[simp]
theorem RaceFree.andThen {p q : Prog ι β α} (hp : p.RaceFree)
    (hq : q.RaceFree) : (p.andThen q).RaceFree := by
  refine hp.bind fun b => ?_
  cases b
  · exact trivial
  · exact hq

@[simp] theorem raceFree_ret (b : Bool) : (ret b : Prog ι β α).RaceFree := trivial

@[simp] theorem raceFree_act (f : Mem β α → Mem β α) (k : Prog ι β α) :
    (act f k).RaceFree ↔ k.RaceFree := Iff.rfl

@[simp] theorem raceFree_doAct (f : Mem β α → Mem β α) :
    (doAct f : Prog ι β α).RaceFree := trivial

theorem raceFree_all {ops : List (Xfer ι β)} (h : ops.Pairwise Xfer.Compatible) :
    (all ops : Prog ι β α).RaceFree := by
  cases ops with
  | nil => exact trivial
  | cons x xs => exact ⟨h, fun _ => trivial⟩

@[simp] theorem raceFree_send (peer : ι) (s : Slice β) (width : ℕ) :
    (send peer s width : Prog ι β α).RaceFree :=
  raceFree_all (List.pairwise_singleton _ _)

@[simp] theorem raceFree_recv (peer : ι) (s : Slice β) (width : ℕ) :
    (recv peer s width : Prog ι β α).RaceFree :=
  raceFree_all (List.pairwise_singleton _ _)

@[simp] theorem raceFree_forEach {γ : Type*} {xs : List γ} {body : γ → Prog ι β α}
    (h : ∀ x ∈ xs, (body x).RaceFree) : (forEach xs body).RaceFree := by
  induction xs with
  | nil => exact trivial
  | cons x xs ih =>
      exact (h x List.mem_cons_self).andThen
        (ih fun y hy => h y (List.mem_cons_of_mem _ hy))

theorem raceFree_inTurn {ps : List (Prog ι β α)} (h : ∀ p ∈ ps, p.RaceFree) :
    (inTurn ps).RaceFree := by
  induction ps with
  | nil => exact trivial
  | cons p ps ih =>
      exact (h p List.mem_cons_self).bind fun _ =>
        ih fun q hq => h q (List.mem_cons_of_mem _ hq)

end Prog

/-! ### Accesses -/

/-- The computation changes only cells of `S`, and what it leaves there depends on
cells of `S` only. -/
structure Mem.StaysIn (S : β → ℕ → Prop) (f : Mem β α → Mem β α) : Prop where
  changes : ∀ m b i, ¬ S b i → f m b i = m b i
  depends : ∀ m m', (∀ b i, S b i → m b i = m' b i) → ∀ b i, S b i → f m b i = f m' b i

namespace Prog

/-- All computations and the slices of all transfers stay in the cells of `S`, whatever
the transfers return. -/
def StaysIn (S : β → ℕ → Prop) : Prog ι β α → Prop
  | ret _ => True
  | act f k => Mem.StaysIn S f ∧ k.StaysIn S
  | par ops k => (∀ x ∈ ops, ∀ b i, x.slice.Has b i → S b i) ∧ ∀ rs, (k rs).StaysIn S

variable {S : β → ℕ → Prop}

theorem StaysIn.bind {p : Prog ι β α} {g : Bool → Prog ι β α} (hp : p.StaysIn S)
    (hg : ∀ b, (g b).StaysIn S) : (p.bind g).StaysIn S := by
  induction p with
  | ret b => exact hg b
  | act f k ih => exact ⟨hp.1, ih hp.2⟩
  | par ops k ih => exact ⟨hp.1, fun rs => ih rs (hp.2 rs)⟩

theorem StaysIn.of_bind {p : Prog ι β α} {g : Bool → Prog ι β α} (h : (p.bind g).StaysIn S) :
    p.StaysIn S := by
  induction p with
  | ret b => exact trivial
  | act f k ih => exact ⟨h.1, ih h.2⟩
  | par ops k ih => exact ⟨h.1, fun rs => ih rs (h.2 rs)⟩

theorem StaysIn.andThen {p q : Prog ι β α} (hp : p.StaysIn S) (hq : q.StaysIn S) :
    (p.andThen q).StaysIn S := by
  refine hp.bind fun b => ?_
  cases b
  · exact trivial
  · exact hq

theorem StaysIn.doAct {f : Mem β α → Mem β α} (hf : Mem.StaysIn S f) :
    (Prog.doAct f : Prog ι β α).StaysIn S :=
  ⟨hf, trivial⟩

theorem staysIn_forEach {γ : Type*} {xs : List γ} {body : γ → Prog ι β α}
    (h : ∀ x ∈ xs, (body x).StaysIn S) : (forEach xs body).StaysIn S := by
  induction xs with
  | nil => exact trivial
  | cons x xs ih =>
      exact (h x List.mem_cons_self).andThen
        (ih fun y hy => h y (List.mem_cons_of_mem _ hy))

end Prog

end MiniCcl
