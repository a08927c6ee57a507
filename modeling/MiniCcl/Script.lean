/-
MiniCcl/Script.lean

Global scripts and their projection to processes.

A script lists the transfers and local computations of a whole network in one
order that would be possible.  Read sequentially it is a program on the family
of memories (`exec`); read at one process it is the list of actions that this
process takes part in (`project`).  If every process, by itself, performs the
projection of the script (`Performs`), then the network runs through the script
and ends with the memories that sequential reading gives (`exists_run`).

Together with `Commuting` that settles *all* runs (`Schedule`): under rendezvous
no reachable state is stuck and every meeting `Send` and `Recv` have the same
length; under either semantics the only completed state is the one the script
computes, whatever the interleaving.  Deadlock freedom and functional
correctness of an algorithm are thereby reduced to a comparison of lists at one
process and to a sequential computation.
-/
import Mathlib.Data.List.Nodup
import MiniCcl.Network

namespace MiniCcl

variable {ι β α : Type*}

/-- An action of the network: the slice `s` of process `i` is sent to the slice
`d` of process `j`, or process `r` computes. -/
inductive Event (ι β α : Type*)
  | comm (i : ι) (s : Slice β) (j : ι) (d : Slice β) (width : ℕ)
  | act (r : ι) (f : Mem β α → Mem β α)

/-- An action of one process. -/
inductive Local (ι β α : Type*)
  | xfer (x : Xfer ι β)
  | act (f : Mem β α → Mem β α)

/-- A global order of actions. -/
abbrev Script (ι β α : Type*) := List (Event ι β α)

namespace Event

/-- The event takes place among the processes `R`; a transfer is between two
different ones and of one length. -/
def Wf (R : ι → Prop) : Event ι β α → Prop
  | comm i s j d _ => R i ∧ R j ∧ i ≠ j ∧ s.len = d.len
  | act r _ => R r

variable [DecidableEq ι]

/-- What process `r` does in an event. -/
def project (r : ι) : Event ι β α → List (Local ι β α)
  | comm i s j d w =>
      if r = i then [.xfer ⟨.send, j, s, w⟩]
      else if r = j then [.xfer ⟨.recv, i, d, w⟩] else []
  | act q f => if r = q then [.act f] else []

/-- A process outside `R` takes no part in an event among `R`. -/
theorem Wf.project_eq_nil {R : ι → Prop} {e : Event ι β α} (h : e.Wf R) {r : ι}
    (hr : ¬ R r) : e.project r = [] := by
  cases e with
  | comm i s j d w =>
      have hi : r ≠ i := fun hri => hr (hri ▸ h.1)
      have hj : r ≠ j := fun hrj => hr (hrj ▸ h.2.1)
      simp [project, hi, hj]
  | act q f =>
      have hq : r ≠ q := fun hrq => hr (hrq ▸ h)
      simp [project, hq]

/-- The effect of an event on the memories. -/
def exec [DecidableEq β] : Event ι β α → (ι → Mem β α) → ι → Mem β α
  | comm i s j d _, m => Function.update m j ((m j).write d ((m i).read s))
  | act r f, m => Function.update m r (f (m r))

end Event

namespace Script

variable [DecidableEq ι]

/-- What process `r` does in a script. -/
def project (r : ι) (C : Script ι β α) : List (Local ι β α) :=
  C.flatMap (Event.project r)

@[simp] theorem project_nil (r : ι) : project r ([] : Script ι β α) = [] := rfl

@[simp] theorem project_cons (r : ι) (e : Event ι β α) (C : Script ι β α) :
    project r (e :: C) = e.project r ++ project r C := rfl

@[simp] theorem project_append (r : ι) (C C' : Script ι β α) :
    project r (C ++ C') = project r C ++ project r C' :=
  List.flatMap_append

theorem project_flatMap {γ : Type*} (r : ι) (xs : List γ) (g : γ → Script ι β α) :
    project r (xs.flatMap g) = xs.flatMap fun x => project r (g x) :=
  List.flatMap_assoc

theorem project_map {γ : Type*} (r : ι) (xs : List γ) (g : γ → Event ι β α) :
    project r (xs.map g) = xs.flatMap fun x => (g x).project r :=
  List.flatMap_map g _ xs

variable [DecidableEq β]

/-- The sequential reading of a script. -/
def exec (C : Script ι β α) (m : ι → Mem β α) : ι → Mem β α :=
  C.foldl (fun m e => e.exec m) m

@[simp] theorem exec_nil (m : ι → Mem β α) : exec ([] : Script ι β α) m = m := rfl

@[simp] theorem exec_cons (e : Event ι β α) (C : Script ι β α) (m : ι → Mem β α) :
    exec (e :: C) m = exec C (e.exec m) := rfl

theorem exec_append (C C' : Script ι β α) (m : ι → Mem β α) :
    exec (C ++ C') m = exec C' (exec C m) :=
  List.foldl_append

end Script

/-! ### Local runs -/

variable [DecidableEq ι]

/-- `Performs ops p l`: with the transfers `ops` outstanding and `p` to follow,
the process takes exactly the actions `l`, in this order, and returns `true`,
provided every transfer succeeds.  Outstanding transfers may be taken in any
order; starting a batch is not an action of its own. -/
inductive Performs : List (Xfer ι β) → Prog ι β α → List (Local ι β α) → Prop
  | done : Performs [] (.ret true) []
  | act {f k l} : Performs [] k l → Performs [] (.act f k) (.act f :: l)
  | spawn {ops k a l} : Performs ops (k (ops.map fun _ => true)) (a :: l) →
      Performs [] (.par ops k) (a :: l)
  | xfer {ops p x l} : ops.find? (fun y => decide (y.key = x.key)) = some x →
      Performs (ops.eraseP fun y => decide (y.key = x.key)) p l →
      Performs ops p (.xfer x :: l)

namespace Performs

theorem bind {ops : List (Xfer ι β)} {p : Prog ι β α} {g : Bool → Prog ι β α}
    {l l' : List (Local ι β α)} (h : Performs ops p l)
    (h' : Performs [] (g true) l') : Performs ops (p.bind g) (l ++ l') := by
  induction h with
  | done => exact h'
  | act _ ih => exact .act ih
  | spawn _ ih => exact .spawn ih
  | xfer hx _ ih => exact .xfer hx ih

theorem andThen {p q : Prog ι β α} {l l' : List (Local ι β α)}
    (h : Performs [] p l) (h' : Performs [] q l') :
    Performs [] (p.andThen q) (l ++ l') :=
  h.bind h'

theorem doAct (f : Mem β α → Mem β α) :
    Performs (ι := ι) [] (Prog.doAct f) [.act f] :=
  .act .done

theorem forEach {γ : Type*} {xs : List γ} {body : γ → Prog ι β α}
    {l : γ → List (Local ι β α)} (h : ∀ x ∈ xs, Performs [] (body x) (l x)) :
    Performs [] (Prog.forEach xs body) (xs.flatMap l) := by
  induction xs with
  | nil => exact .done
  | cons x xs ih =>
      exact (h x List.mem_cons_self).andThen
        (ih fun y hy => h y (List.mem_cons_of_mem _ hy))

/-- The transfers of a batch with distinct partners complete in any order. -/
theorem batch {ops xs : List (Xfer ι β)} {p : Prog ι β α}
    {l : List (Local ι β α)} (hperm : xs.Perm ops) (hnd : (ops.map Xfer.key).Nodup)
    (h : Performs [] p l) : Performs ops p (xs.map .xfer ++ l) := by
  induction xs generalizing ops with
  | nil => rw [hperm.nil_eq.symm]; exact h
  | cons x xs ih =>
      have hx : x ∈ ops := hperm.subset List.mem_cons_self
      obtain ⟨l₁, l₂, rfl⟩ := List.append_of_mem hx
      have hne : ∀ y ∈ l₁, ¬ decide (y.key = x.key) = true := by
        intro y hy hk
        simp only [List.map_append, List.map_cons, List.nodup_append] at hnd
        exact hnd.2.2 _ (List.mem_map_of_mem hy) _ List.mem_cons_self (by simpa using hk)
      have herase : (l₁ ++ x :: l₂).eraseP (fun y => decide (y.key = x.key)) = l₁ ++ l₂ := by
        rw [List.eraseP_append_right _ hne, List.eraseP_cons_of_pos (by simp)]
      refine .xfer ?_ (ih ?_ ?_)
      · rw [List.find?_append, List.find?_eq_none.mpr hne]
        simp
      · rw [herase]
        exact (hperm.trans List.perm_middle).cons_inv
      · rw [herase]
        exact hnd.sublist (((List.sublist_cons_self x l₂).append_left l₁).map _)

theorem par {ops xs : List (Xfer ι β)} {k : List Bool → Prog ι β α}
    {l : List (Local ι β α)} (hperm : xs.Perm ops) (hne : ops ≠ [])
    (hnd : (ops.map Xfer.key).Nodup)
    (h : Performs [] (k (ops.map fun _ => true)) l) :
    Performs [] (.par ops k) (xs.map .xfer ++ l) := by
  have hbatch := batch hperm hnd h
  cases xs with
  | nil => exact absurd hperm.nil_eq.symm hne
  | cons x xs => exact .spawn hbatch

theorem all {ops xs : List (Xfer ι β)} (hperm : xs.Perm ops)
    (hnd : (ops.map Xfer.key).Nodup) :
    Performs (α := α) [] (Prog.all ops) (xs.map .xfer) := by
  cases ops with
  | nil => rw [hperm.eq_nil]; exact .done
  | cons x ops =>
      have hret : ((x :: ops).map fun _ => true).all id = true := by simp
      have hdone : Performs (α := α) [] (.ret (((x :: ops).map fun _ => true).all id))
          ([] : List (Local ι β α)) := by
        rw [hret]
        exact .done
      have hpar := par (k := fun rs => .ret (rs.all id)) hperm (List.cons_ne_nil x ops)
        hnd hdone
      rwa [List.append_nil] at hpar

theorem send (j : ι) (s : Slice β) (w : ℕ) :
    Performs (α := α) [] (.send j s w) [.xfer ⟨.send, j, s, w⟩] :=
  all (.refl _) (List.nodup_singleton _)

theorem recv (i : ι) (d : Slice β) (w : ℕ) :
    Performs (α := α) [] (.recv i d w) [.xfer ⟨.recv, i, d, w⟩] :=
  all (.refl _) (List.nodup_singleton _)

end Performs

end MiniCcl
