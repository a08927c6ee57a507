/-
MiniCcl/Checkpoint.lean

The memory of a process in the middle of a run.

Processes run at different speeds, so a network is hardly ever between two events of its
script.  A process by itself is, whenever none of its transfers is outstanding: it has
done its part of some events and has its part of the rest before it
(`Schedule.between`).  What it has before it can be read off its program, and events in
which it takes no part do not change its memory, so its memory is what the events before
have computed (`Schedule.mem_of_performs`), in every run and whatever the others have done.
-/
import MiniCcl.Schedule

namespace MiniCcl

open Lts

variable {ι β α : Type*}

/-! ### Programs determine how much is to be done -/

/-- The number of actions of a process whose transfers succeed. -/
def Prog.actions : Prog ι β α → ℕ
  | .ret _ => 0
  | .act _ k => k.actions + 1
  | .par ops k => (k (ops.map fun _ => true)).actions + ops.length

variable [DecidableEq ι]

theorem Performs.length_eq {ops : List (Xfer ι β)} {p : Prog ι β α} {l : List (Local ι β α)}
    (h : Performs ops p l) : l.length = p.actions + ops.length := by
  induction h with
  | done => rfl
  | act _ ih => simp [Prog.actions, ih]
  | spawn _ ih => simp [Prog.actions, ih]
  | @xfer ops p x l hx _ ih =>
      have hmem : x ∈ ops := List.mem_of_find?_eq_some hx
      have herase : (ops.eraseP fun y => decide (y.key = x.key)).length = ops.length - 1 :=
        List.length_eraseP_of_mem hmem (decide_eq_true rfl)
      have hpos := List.length_pos_of_mem hmem
      rw [List.length_cons, ih, herase]
      omega

/-! ### Events of others -/

namespace Script

variable [DecidableEq β] {q : ι}

theorem exec_event_of_project {e : Event ι β α} (h : e.project q = []) (M : ι → Mem β α) :
    e.exec M q = M q := by
  cases e with
  | comm i s j d w =>
      have hj : q ≠ j := by
        rintro rfl
        by_cases hi : q = i
        · simp [Event.project, hi] at h
        · simp [Event.project, hi] at h
      exact Function.update_of_ne hj ..
  | act r f =>
      have hr : q ≠ r := by
        rintro rfl
        simp [Event.project] at h
      exact Function.update_of_ne hr ..

/-- Events in which a process takes no part do not change its memory. -/
theorem exec_of_project {C : Script ι β α} (h : project q C = []) (M : ι → Mem β α) :
    exec C M q = M q := by
  induction C generalizing M with
  | nil => rfl
  | cons e C ih =>
      obtain ⟨he, hC⟩ := List.append_eq_nil_iff.mp h
      rw [exec_cons, ih hC, exec_event_of_project he]

/-- Two cuts of a script between which a process does nothing. -/
theorem exec_eq_of_append {D E D' E' : Script ι β α} (h : D ++ E = D' ++ E')
    (hlen : (project q E).length = (project q E').length) (M : ι → Mem β α) :
    exec D M q = exec D' M q := by
  have hskip {A X B B' : Script ι β α} (hB : B = X ++ B')
      (hlen : (project q B).length = (project q B').length) :
      exec (A ++ X) M q = exec A M q := by
    rw [hB, project_append, List.length_append] at hlen
    rw [exec_append]
    exact exec_of_project (List.length_eq_zero_iff.mp (by omega)) _
  rcases List.append_eq_append_iff.mp h with ⟨X, rfl, hE⟩ | ⟨X, rfl, hE⟩
  · exact (hskip hE hlen).symm
  · exact hskip hE hlen.symm

end Script

variable [DecidableEq β]

/-- What a process has before it says what it has done. -/
theorem Between.mem_eq {C D E : Script ι β α} {M : ι → Mem β α} {q : ι} {x : Node ι β α}
    (h : Between C M q x) (hC : C = D ++ E)
    (hE : Performs x.pending x.next (Script.project q E)) : x.mem = Script.exec D M q := by
  obtain ⟨D', E', hC', hE', hmem⟩ := h
  rw [hmem]
  exact Script.exec_eq_of_append (hC'.symm.trans hC) (hE'.length_eq.trans hE.length_eq.symm) M

/-! ### Local steps over channels -/

namespace Fifo

theorem step_act {s : Fifo ι β α} {q : ι} {y : Node ι β α} (h : (s.node q).local? = some y) :
    step s (.act q) ⟨Function.update s.node q y, s.chan⟩ := by
  refine ⟨[], rfl, fun r => ?_, fun _ _ => rfl⟩
  by_cases hr : r = q
  · subst hr
    simpa [Label.role, Node.play] using h
  · simp [Label.role, hr, Node.play]

/-- A process that can take a local step takes part in no other. -/
theorem node_eq_of_step {s t u : Fifo ι β α} {a : Label ι} {q : ι} (ha : step s a t)
    (hq : step s (.act q) u) (hne : a ≠ .act q) : t.node q = s.node q := by
  obtain ⟨d, -, hplay, -⟩ := ha
  obtain ⟨e, -, hlocal, -⟩ := hq
  have hlocal : (s.node q).local? = some (u.node q) := by
    simpa [Label.role, Node.play] using hlocal q
  have hidle : a.role q = .idle := by
    have hxfer {k : Dir × ι} (hk : a.role q = .xfer k) : a.role q = .idle := by
      have hq := hplay q
      rw [hk] at hq
      obtain ⟨op, hop, -⟩ := Option.map_eq_some_iff.mp hq
      exact absurd hlocal (by simp [Node.local?_eq_none hop])
    cases a with
    | act r =>
        refine if_neg ?_
        rintro rfl
        exact hne rfl
    | push i j =>
        by_cases hi : q = i
        · exact hxfer (if_pos hi)
        · exact if_neg hi
    | pull i j =>
        by_cases hj : q = j
        · exact hxfer (if_pos hj)
        · exact if_neg hj
  have hq := hplay q
  rw [hidle] at hq
  exact (Option.some.inj hq).symm

/-- What is known of the processes that take local steps is kept by all other steps. -/
theorem commuting_local (K : ι → Node ι β α → Prop) :
    Commuting (step (ι := ι) (β := β) (α := α)) (fun s => ∀ q, (s.node q).RaceFree)
      (fun s a => ∀ q, a = .act q → K q (s.node q)) where
  det := commuting.det
  inv := commuting.inv
  square := commuting.square
  persist := by
    rintro s a b t u - hab ha hb
    refine forall_congr' fun q => forall_congr' ?_
    rintro rfl
    rw [node_eq_of_step ha hb hab]

end Fifo

/-! ### Between two events -/

namespace Schedule

variable {R : ι → Prop} [DecidablePred R] {P : ι → Prog ι β α} {C D E : Script ι β α}
  (h : Schedule R P C) {m : ι → Mem β α} {s : Fifo ι β α}
  (hs : Fifo.step.Reaches (Fifo.init (team R P) m) s) {q : ι}

include h hs

/-- In every run a process without outstanding transfers is between two events. -/
theorem between (hjoined : (s.node q).pending = []) : Between C m q (s.node q) := by
  obtain ⟨ls, t, hrun, hret, hmem⟩ := h.exists_between_run m
  have hterminal : Fifo.step.Terminal ⟨t, fun _ _ => []⟩ :=
    Fifo.terminal_of_finished fun r => ⟨true, hret r⟩
  have hraceFree : ∀ r, ((Fifo.init (team R P) m).node r).RaceFree :=
    raceFree_start h.raceFree_team m
  have hcommuting := Fifo.commuting_local (Between C m)
  cases hnext : (s.node q).next with
  | ret b =>
      -- it has returned, so it is as it is at the end
      obtain ⟨ls', hrest⟩ := hcommuting.run_of_reaches hraceFree hrun hterminal hs
      have hsame : t q = s.node q := Fifo.frozen hrest.reaches ⟨b, hjoined, hnext⟩
      obtain ⟨hp, hn⟩ := hret q
      refine ⟨C, [], (List.append_nil C).symm, ?_, ?_⟩
      · rw [← hsame, hp, hn]
        exact .done
      · rw [← hsame, hmem]
  | act f k =>
      have hlocal : (s.node q).local? = some ⟨[], k, f (s.node q).mem⟩ := by
        rw [show s.node q = ⟨[], .act f k, (s.node q).mem⟩ by rw [← hjoined, ← hnext]]
        rfl
      exact hcommuting.enabled hraceFree hrun hterminal hs (Fifo.step_act hlocal) q rfl
  | par ops k =>
      have hlocal : (s.node q).local?
          = some ⟨ops, k (ops.map fun _ => true), (s.node q).mem⟩ := by
        rw [show s.node q = ⟨[], .par ops k, (s.node q).mem⟩ by rw [← hjoined, ← hnext]]
        rfl
      exact hcommuting.enabled hraceFree hrun hterminal hs (Fifo.step_act hlocal) q rfl

/-- **The memory in the middle of a run**: a process that has its part of `E` before it
has the memory that the events before `E` compute. -/
theorem mem_of_performs (hC : C = D ++ E) (hjoined : (s.node q).pending = [])
    (hE : Performs [] (s.node q).next (Script.project q E)) :
    (s.node q).mem = Script.exec D m q := by
  rw [← hjoined] at hE
  exact (h.between hs hjoined).mem_eq hC hE

end Schedule

/-! ### Reaching a checkpoint

What processes can do in their programs they can do in front of other programs. -/

section Bind

omit [DecidableEq ι] [DecidableEq β] in
theorem Prog.bind_assoc (p : Prog ι β α) (g g' : Bool → Prog ι β α) :
    (p.bind g).bind g' = p.bind fun ok => (g ok).bind g' := by
  induction p with
  | ret b => rfl
  | act f k ih => exact congrArg (Prog.act f) ih
  | par ops k ih => exact congrArg (Prog.par ops) (funext ih)

omit [DecidableEq ι] [DecidableEq β] in
theorem Prog.andThen_assoc (p q q' : Prog ι β α) :
    (p.andThen q).andThen q' = p.andThen (q.andThen q') := by
  unfold Prog.andThen
  rw [Prog.bind_assoc]
  congr 1
  funext ok
  cases ok
  · rfl
  · rfl

omit [DecidableEq ι] [DecidableEq β] in
theorem Prog.forEach_append {γ : Type*} (xs ys : List γ) (body : γ → Prog ι β α) :
    Prog.forEach (xs ++ ys) body = (Prog.forEach xs body).andThen (Prog.forEach ys body) := by
  induction xs with
  | nil => rfl
  | cons x xs ih => rw [List.cons_append, Prog.forEach_cons, ih, Prog.forEach_cons,
      Prog.andThen_assoc]

/-- The process goes on with `g`. -/
def Node.bind (x : Node ι β α) (g : Bool → Prog ι β α) : Node ι β α :=
  ⟨x.pending, x.next.bind g, x.mem⟩

theorem Node.play_bind {x y : Node ι β α} {d : List α} {a : Role ι} (h : x.play d a = some y)
    (g : Bool → Prog ι β α) : (x.bind g).play d a = some (y.bind g) := by
  cases a with
  | idle =>
      obtain rfl := Option.some.inj h
      rfl
  | xfer k =>
      obtain ⟨op, hop, rfl⟩ := Option.map_eq_some_iff.mp h
      have hbind : (x.bind g).find k = some op := hop
      rw [Node.play_xfer hbind]
      rfl
  | act =>
      obtain ⟨pending, next, mem⟩ := x
      cases pending with
      | cons z zs => cases next <;> simp [Node.play, Node.local?] at h
      | nil =>
          cases next with
          | ret b => simp [Node.play, Node.local?] at h
          | act f k =>
              obtain rfl := Option.some.inj h
              rfl
          | par ops k =>
              obtain rfl := Option.some.inj h
              rfl

namespace Fifo

/-- Every process goes on with its own program. -/
def bind (s : Fifo ι β α) (g : ι → Bool → Prog ι β α) : Fifo ι β α :=
  ⟨fun q => (s.node q).bind (g q), s.chan⟩

theorem step_bind {s t : Fifo ι β α} {a : Label ι} (h : step s a t)
    (g : ι → Bool → Prog ι β α) : step (s.bind g) a (t.bind g) := by
  obtain ⟨d, hd, hplay, hflow⟩ := h
  refine ⟨d, ?_, fun q => Node.play_bind (hplay q) (g q), hflow⟩
  cases a with
  | act r => exact hd
  | push i j => exact hd
  | pull i j => exact hd

theorem reaches_bind {s t : Fifo ι β α} (h : step.Reaches s t) (g : ι → Bool → Prog ι β α) :
    step.Reaches (s.bind g) (t.bind g) := by
  induction h with
  | refl => exact .refl
  | tail _ hstep ih =>
      obtain ⟨a, ha⟩ := hstep
      exact ih.tail ⟨a, step_bind ha g⟩

end Fifo

omit [DecidableEq ι] [DecidableEq β] in
theorem Prog.RaceFree.of_bind {p : Prog ι β α} {g : Bool → Prog ι β α}
    (h : (p.bind g).RaceFree) : p.RaceFree := by
  induction p with
  | ret b => exact trivial
  | act f k ih => exact ih h
  | par ops k ih => exact ⟨h.1, fun rs => ih rs (h.2 rs)⟩

omit [DecidableEq β] in
/-- The first of two calls performs the first part of the script. -/
theorem Schedule.of_andThen {R : ι → Prop} {P Q : ι → Prog ι β α} {D E : Script ι β α}
    (h : Schedule R (fun r => (P r).andThen (Q r)) (D ++ E))
    (hP : ∀ r, R r → Performs [] (P r) (Script.project r D)) : Schedule R P D where
  performs := hP
  wf e he := h.wf e (List.mem_append_left E he)
  raceFree r hr := (h.raceFree r hr).of_bind

/-- In some run all processes have done the first of two calls and stand before the
second. -/
theorem Schedule.exists_before {R : ι → Prop} [DecidablePred R] {P Q : ι → Prog ι β α}
    {D E : Script ι β α} (h : Schedule R (fun r => (P r).andThen (Q r)) (D ++ E))
    (hP : ∀ r, R r → Performs [] (P r) (Script.project r D)) (m : ι → Mem β α) :
    ∃ s, Fifo.step.Reaches (Fifo.init (team R fun r => (P r).andThen (Q r)) m) s ∧
      ∀ r, R r → (s.node r).pending = [] ∧ (s.node r).next = Q r := by
  obtain ⟨t, ht, hret⟩ := (h.of_andThen hP).exists_completed m
  let g : ι → Bool → Prog ι β α := fun r ok => if ok then team R Q r else .ret false
  have hinit : (Fifo.init (team R P) m).bind g
      = Fifo.init (team R fun r => (P r).andThen (Q r)) m := by
    have hprog (r : ι) : (team R P r).bind (g r) = team R (fun r => (P r).andThen (Q r)) r := by
      by_cases hr : R r
      · simp [team, hr, g, Prog.andThen]
      · simp [team, hr, g, Prog.bind]
    simp only [Fifo.init, Fifo.bind, start, Node.bind, hprog]
    rfl
  refine ⟨t.bind g, hinit ▸ Fifo.reaches_bind ht g, fun r hr => ?_⟩
  obtain ⟨hp, hn⟩ := hret r
  refine ⟨hp, ?_⟩
  show (t.node r).next.bind (g r) = Q r
  simp [hn, Prog.bind, g, team, hr]

end Bind

end MiniCcl
