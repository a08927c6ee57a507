/-
MiniCcl/Schedule.lean

A network whose processes perform the projections of one script.

`exists_run` plays the script: before an event the processes concerned start
their batches, then the event is a step.  `Schedule P C` packages what has to be
checked about the programs `P` and the script `C`; from it come the statements
about every run, `Schedule.progress`, `Schedule.matched`, `Schedule.quiet` for
rendezvous and `Schedule.completed` for channels.
-/
import MiniCcl.Script

namespace MiniCcl

open Lts

variable {ι β α : Type*} [DecidableEq ι] [DecidableEq β]

/-! ### Playing a script -/

theorem Rendezvous.step_act {s : ι → Node ι β α} {q : ι} {y : Node ι β α}
    (h : (s q).local? = some y) :
    Rendezvous.step s (.act q) (Function.update s q y) := by
  refine ⟨[], rfl, fun r => ?_⟩
  by_cases hr : r = q
  · subst hr
    simpa [Label.role, Node.play] using h
  · simp [Label.role, hr, Node.play]

theorem Rendezvous.step_comm {s : ι → Node ι β α} {i j : ι} {x y : Xfer ι β}
    (hij : i ≠ j) (hx : (s i).find (.send, j) = some x)
    (hy : (s j).find (.recv, i) = some y) :
    Rendezvous.step s (.comm i j)
      (Function.update (Function.update s i ⟨(s i).without (.send, j), (s i).next, (s i).mem⟩)
        j ⟨(s j).without (.recv, i), (s j).next,
          (s j).mem.write y.slice ((s i).mem.read x.slice)⟩) := by
  have hxd : x.dir = .send := congrArg Prod.fst (Node.key_of_find hx)
  have hyd : y.dir = .recv := congrArg Prod.fst (Node.key_of_find hy)
  refine ⟨(s i).mem.read x.slice, ⟨hij, by simp [Node.offer?, hx]⟩, fun r => ?_⟩
  by_cases hj : r = j
  · subst hj
    simp [Label.role, Ne.symm hij, Node.play, hy, Xfer.land, hyd]
  · by_cases hi : r = i
    · subst hi
      simp [Label.role, hij, Node.play, hx, Xfer.land, hxd]
    · simp [Label.role, hi, hj, Node.play]

/-- The process can take the action `a` now, and `l` after it. -/
inductive Ready : List (Xfer ι β) → Prog ι β α → Local ι β α → List (Local ι β α) → Prop
  | act {f k l} : Performs [] k l → Ready [] (.act f k) (.act f) l
  | xfer {ops p x l} : ops.find? (fun y => decide (y.key = x.key)) = some x →
      Performs (ops.eraseP fun y => decide (y.key = x.key)) p l →
      Ready ops p (.xfer x) l

/-- The network has the script `C` before it, and its memories are `M`. -/
structure Awaits (C : Script ι β α) (M : ι → Mem β α) (s : ι → Node ι β α) : Prop where
  performs : ∀ r, Performs (s r).pending (s r).next (Script.project r C)
  mem : (fun r => (s r).mem) = M

omit [DecidableEq β] in
/-- A process may start batches while the network waits. -/
theorem Awaits.update {C : Script ι β α} {M : ι → Mem β α} {s : ι → Node ι β α}
    (h : Awaits C M s) {q : ι} {ops : List (Xfer ι β)} {p : Prog ι β α}
    (hq : Performs ops p (Script.project q C)) :
    Awaits C M (Function.update s q ⟨ops, p, (s q).mem⟩) where
  performs r := by
    by_cases hr : r = q
    · subst hr
      simpa using hq
    · simpa [Function.update_of_ne hr] using h.performs r
  mem := by
    rw [← h.mem]
    funext r
    by_cases hr : r = q
    · subst hr
      simp
    · simp [Function.update_of_ne hr]

/-- A process that performs a list of actions gets ready for the first one by
itself, without touching its memory.  `Q` is what is known of the steps before. -/
theorem Performs.ready {ops : List (Xfer ι β)} {p : Prog ι β α} {a : Local ι β α}
    {l : List (Local ι β α)} (h : Performs ops p (a :: l)) :
    ∃ ops' p', Ready ops' p' a l ∧ Performs ops' p' (a :: l) ∧
      ∀ {Q : (ι → Node ι β α) → Rendezvous.Label ι → Prop} (s : ι → Node ι β α) (q : ι),
        (s q).pending = ops → (s q).next = p →
        (∀ {ops p}, Performs ops p (a :: l) →
          Q (Function.update s q ⟨ops, p, (s q).mem⟩) (.act q)) →
        ∃ ls, Run Rendezvous.step Q s ls (Function.update s q ⟨ops', p', (s q).mem⟩) := by
  generalize hal : a :: l = al at h
  induction h with
  | done => cases hal
  | @act f k l' hk _ =>
      cases hal
      refine ⟨[], .act f k, .act hk, .act hk, fun s q hops hp _ => ⟨[], ?_⟩⟩
      rw [show (⟨[], .act f k, (s q).mem⟩ : Node ι β α) = s q from by rw [← hops, ← hp],
        Function.update_eq_self]
      exact .nil s
  | @spawn ops k a' l' hspawn ih =>
      obtain ⟨ops', p', hready, hperforms, hrun⟩ := ih hal
      refine ⟨ops', p', hready, hperforms, fun {Q} s q hops hp hQ => ?_⟩
      let y : Node ι β α := ⟨ops, k (ops.map fun _ => true), (s q).mem⟩
      have hself : s q = ⟨[], .par ops k, (s q).mem⟩ := by rw [← hops, ← hp]
      have hlocal : (s q).local? = some y := by
        rw [hself]
        rfl
      have hy : Function.update s q y q = y := Function.update_self q y s
      obtain ⟨ls, hls⟩ := hrun (Function.update s q y) q (congrArg Node.pending hy)
        (congrArg Node.next hy) fun hperforms' => by
          rw [hy, Function.update_idem]
          exact hQ hperforms'
      rw [hy, Function.update_idem] at hls
      -- the batch starts in the state itself
      have hstart := hQ (.spawn hspawn)
      rw [← hself, Function.update_eq_self] at hstart
      exact ⟨_, .cons (Rendezvous.step_act hlocal) hstart hls⟩
  | @xfer ops p x l' hx hl _ =>
      cases hal
      refine ⟨ops, p, .xfer hx hl, .xfer hx hl, fun s q hops hp _ => ⟨[], ?_⟩⟩
      rw [show (⟨ops, p, (s q).mem⟩ : Node ι β α) = s q from by rw [← hops, ← hp],
        Function.update_eq_self]
      exact .nil s

/-- In the steps that lead to the first event of `C`, transfers match and the network
waits for `C`. -/
def Awaiting (C : Script ι β α) (M : ι → Mem β α) (s : ι → Node ι β α)
    (a : Rendezvous.Label ι) : Prop :=
  Rendezvous.Matched s a ∧ Awaits C M s

/-- A process gets ready for its next action while the network waits. -/
theorem Awaits.ready {C : Script ι β α} {M : ι → Mem β α} {s : ι → Node ι β α}
    (h : Awaits C M s) {q : ι} {a : Local ι β α} {l : List (Local ι β α)}
    (hq : Script.project q C = a :: l) :
    ∃ ls u, Run Rendezvous.step (Awaiting C M) s ls u ∧ Awaits C M u ∧
      Ready (u q).pending (u q).next a l ∧ ∀ r, r ≠ q → u r = s r := by
  obtain ⟨ops, p, hready, hperforms, hrun⟩ := (hq ▸ h.performs q).ready
  obtain ⟨ls, hls⟩ := hrun (Q := Awaiting C M) s q rfl rfl fun hperforms' =>
    ⟨trivial, h.update (hq ▸ hperforms')⟩
  refine ⟨ls, _, hls, h.update (hq ▸ hperforms), ?_, fun r hr => Function.update_of_ne hr ..⟩
  rw [Function.update_self]
  exact hready

omit [DecidableEq β] in
theorem Ready.of_xfer {ops : List (Xfer ι β)} {p : Prog ι β α} {x : Xfer ι β}
    {l : List (Local ι β α)} (h : Ready ops p (.xfer x) l) :
    ops.find? (fun y => decide (y.key = x.key)) = some x ∧
      Performs (ops.eraseP fun y => decide (y.key = x.key)) p l := by
  cases h with
  | xfer hx hl => exact ⟨hx, hl⟩

omit [DecidableEq β] in
theorem Ready.of_act {x : Node ι β α} {f : Mem β α → Mem β α} {l : List (Local ι β α)}
    (h : Ready x.pending x.next (.act f) l) :
    ∃ k, x.local? = some ⟨[], k, f x.mem⟩ ∧ Performs [] k l := by
  obtain ⟨pending, next, mem⟩ := x
  cases h with
  | @act f k l hk => exact ⟨k, rfl, hk⟩

/-- A process that is ready for the first event, a computation of its own, computes. -/
theorem Awaits.act {q : ι} {f : Mem β α → Mem β α} {C : Script ι β α} {M : ι → Mem β α}
    {u : ι → Node ι β α} (h : Awaits (.act q f :: C) M u)
    (hq : Ready (u q).pending (u q).next (.act f) (Script.project q C)) :
    ∃ t, Rendezvous.step u (.act q) t ∧ Awaits C (Event.exec (.act q f) M) t := by
  obtain ⟨k, hlocal, hk⟩ := hq.of_act
  refine ⟨_, Rendezvous.step_act hlocal, ?_, ?_⟩
  · intro r
    by_cases hr : r = q
    · subst hr
      simpa using hk
    · simpa [Function.update_of_ne hr, Event.project, hr] using h.performs r
  · rw [← h.mem]
    funext r
    by_cases hr : r = q
    · subst hr
      simp [Event.exec]
    · simp [Event.exec, hr]

/-- Two processes that are ready for the first event, a transfer between them, transfer. -/
theorem Awaits.comm {i j : ι} {sl dl : Slice β} {w : ℕ} (hij : i ≠ j) (hlen : sl.len = dl.len)
    {C : Script ι β α} {M : ι → Mem β α} {u : ι → Node ι β α}
    (h : Awaits (.comm i sl j dl w :: C) M u)
    (hi : Ready (u i).pending (u i).next (.xfer ⟨.send, j, sl, w⟩) (Script.project i C))
    (hj : Ready (u j).pending (u j).next (.xfer ⟨.recv, i, dl, w⟩) (Script.project j C)) :
    ∃ t, Rendezvous.step u (.comm i j) t ∧ Rendezvous.Matched u (.comm i j) ∧
      Awaits C (Event.exec (.comm i sl j dl w) M) t := by
  obtain ⟨hxi, hpi⟩ := hi.of_xfer
  obtain ⟨hxj, hpj⟩ := hj.of_xfer
  have hsend : (u i).find (.send, j) = some ⟨.send, j, sl, w⟩ := hxi
  have hrecv : (u j).find (.recv, i) = some ⟨.recv, i, dl, w⟩ := hxj
  refine ⟨_, Rendezvous.step_comm hij hsend hrecv, ?_, ?_, ?_⟩
  · intro x y hx hy
    rw [← Option.some.inj (hsend.symm.trans hx), ← Option.some.inj (hrecv.symm.trans hy)]
    exact ⟨hlen, rfl⟩
  · intro r
    by_cases hrj : r = j
    · subst hrj
      simpa [Node.without, Xfer.key] using hpj
    · by_cases hri : r = i
      · subst hri
        simpa [Function.update_of_ne hij, Node.without, Xfer.key] using hpi
      · simpa [Event.project, hri, hrj] using h.performs r
  · rw [← h.mem]
    funext r
    by_cases hrj : r = j
    · subst hrj
      simp [Event.exec]
    · by_cases hri : r = i
      · subst hri
        simp [Event.exec, Function.update_of_ne hij]
      · simp [Event.exec, hrj, hri]

/-- A local computation that comes first is taken. -/
theorem exists_run_act {q : ι} {f : Mem β α → Mem β α} {C : Script ι β α} {M : ι → Mem β α}
    {s : ι → Node ι β α} (h : Awaits (.act q f :: C) M s) :
    ∃ ls t, Run Rendezvous.step (Awaiting (.act q f :: C) M) s ls t ∧
      Awaits C (Event.exec (.act q f) M) t := by
  obtain ⟨ls, u, hrun, hu, hready, -⟩ := h.ready (q := q) (a := .act f)
    (l := Script.project q C) (by simp [Event.project])
  obtain ⟨t, hstep, ht⟩ := hu.act hready
  have hawaiting : Awaiting (.act q f :: C) M u (.act q) := ⟨trivial, hu⟩
  exact ⟨_, t, hrun.append (.single hstep hawaiting), ht⟩

/-- A transfer that comes first is taken, once both partners are ready. -/
theorem exists_run_comm {i j : ι} {sl dl : Slice β} {w : ℕ} (hij : i ≠ j)
    (hlen : sl.len = dl.len) {C : Script ι β α} {M : ι → Mem β α} {s : ι → Node ι β α}
    (h : Awaits (.comm i sl j dl w :: C) M s) :
    ∃ ls t, Run Rendezvous.step (Awaiting (.comm i sl j dl w :: C) M) s ls t ∧
      Awaits C (Event.exec (.comm i sl j dl w) M) t := by
  obtain ⟨ls, u, hrun, hu, hi, -⟩ := h.ready (q := i) (a := .xfer ⟨.send, j, sl, w⟩)
    (l := Script.project i C) (by simp [Event.project])
  obtain ⟨ls', v, hrun', hv, hj, hothers⟩ := hu.ready (q := j) (a := .xfer ⟨.recv, i, dl, w⟩)
    (l := Script.project j C) (by simp [Event.project, Ne.symm hij])
  rw [← hothers i hij] at hi
  obtain ⟨t, hstep, hmatched, ht⟩ := hv.comm hij hlen hi hj
  exact ⟨_, t, hrun.append (hrun'.append (.single hstep ⟨hmatched, hv⟩)), ht⟩

/-- Transfers match, and the network has done a part of `C` and awaits the rest. -/
def Following (C : Script ι β α) (M : ι → Mem β α) (s : ι → Node ι β α)
    (a : Rendezvous.Label ι) : Prop :=
  Rendezvous.Matched s a ∧ ∃ D E, C = D ++ E ∧ Awaits E (Script.exec D M) s

/-- **A script that every process performs is a run of the network**, in which
meeting transfers match, and it computes what sequential reading computes. -/
theorem exists_run {R : ι → Prop} {C : Script ι β α} (hwf : ∀ e ∈ C, e.Wf R) :
    ∀ {M : ι → Mem β α} {s : ι → Node ι β α}, Awaits C M s →
      ∃ ls t, Run Rendezvous.step (Following C M) s ls t ∧
        (∀ r, (t r).Returned true) ∧ (fun r => (t r).mem) = Script.exec C M := by
  induction C with
  | nil =>
      intro M s h
      refine ⟨[], s, .nil s, fun r => ?_, h.mem⟩
      have hr : Performs (s r).pending (s r).next [] := h.performs r
      generalize hops : (s r).pending = ops at hr
      generalize hp : (s r).next = p at hr
      cases hr
      exact ⟨hops, hp⟩
  | cons e C ih =>
      intro M s h
      have hfirst : ∃ ls u, Run Rendezvous.step (Awaiting (e :: C) M) s ls u ∧
          Awaits C (e.exec M) u := by
        cases e with
        | act q f => exact exists_run_act h
        | comm i sl j dl w =>
            obtain ⟨-, -, hij, hlen⟩ := hwf _ List.mem_cons_self
            exact exists_run_comm hij hlen h
      obtain ⟨ls, u, hrun, hu⟩ := hfirst
      obtain ⟨ls', t, hrun', hret, hmem⟩ :=
        ih (fun e' he' => hwf e' (List.mem_cons_of_mem e he')) hu
      have hrun : Run Rendezvous.step (Following (e :: C) M) s ls u :=
        hrun.mono fun ⟨hmatch, hawaits⟩ => ⟨hmatch, [], e :: C, rfl, hawaits⟩
      have hrun' : Run Rendezvous.step (Following (e :: C) M) u ls' t :=
        hrun'.mono fun ⟨hmatch, D, E, hC, hawaits⟩ =>
          ⟨hmatch, e :: D, E, by rw [hC, List.cons_append], hawaits⟩
      exact ⟨ls ++ ls', t, hrun.append hrun', hret, hmem⟩

/-- The process has done its part of some events of `C`, and it has its part of the rest
before it. -/
def Between (C : Script ι β α) (M : ι → Mem β α) (q : ι) (x : Node ι β α) : Prop :=
  ∃ D E, C = D ++ E ∧ Performs x.pending x.next (Script.project q E)
    ∧ x.mem = Script.exec D M q

/-! ### Schedules -/

/-- The processes `R` run the programs `P`; the others have nothing to do. -/
def team (R : ι → Prop) [DecidablePred R] (P : ι → Prog ι β α) : ι → Prog ι β α :=
  fun r => if R r then P r else .ret true

/-- The processes `R` cannot get stuck or out of step while they run `P`. -/
structure Balanced (R : ι → Prop) [DecidablePred R] (P : ι → Prog ι β α) : Prop where
  /-- While a process has not returned, the network can move. -/
  progress : ∀ (m : ι → Mem β α) s, Rendezvous.step.Reaches (start (team R P) m) s →
    (∃ r, R r ∧ ¬ (s r).Finished) → ∃ a t, Rendezvous.step s a t
  /-- A `Send` carries as many bytes as the `Recv` it meets asks for. -/
  matched : ∀ (m : ι → Mem β α) s, Rendezvous.step.Reaches (start (team R P) m) s →
    ∀ i j, i ≠ j → ∀ x y, (s i).find (.send, j) = some x → (s j).find (.recv, i) = some y →
      x.bytes = y.bytes
  /-- When all processes have returned, they returned `true` and no transfer is
  outstanding. -/
  quiet : ∀ (m : ι → Mem β α) s, Rendezvous.step.Reaches (start (team R P) m) s →
    (∀ r, R r → (s r).Finished) → ∀ r, (s r).Returned true
  /-- Over channels that buffer, nothing is left in transit either. -/
  drained : ∀ (m : ι → Mem β α) s, Fifo.step.Reaches (Fifo.init (team R P) m) s →
    (∀ r, R r → (s.node r).Finished) → ∀ i j, s.chan i j = []

/-- Among the processes `R`, the programs `P` are free of races and perform the
script `C`. -/
structure Schedule (R : ι → Prop) (P : ι → Prog ι β α) (C : Script ι β α) : Prop where
  performs : ∀ r, R r → Performs [] (P r) (Script.project r C)
  wf : ∀ e ∈ C, e.Wf R
  raceFree : ∀ r, R r → (P r).RaceFree

namespace Schedule

variable {R : ι → Prop} [DecidablePred R] {P Q : ι → Prog ι β α} {C D : Script ι β α}

omit [DecidableEq β] [DecidablePred R] in
theorem andThen (hP : Schedule R P C) (hQ : Schedule R Q D) :
    Schedule R (fun r => (P r).andThen (Q r)) (C ++ D) where
  performs r hr := by
    rw [Script.project_append]
    exact (hP.performs r hr).andThen (hQ.performs r hr)
  wf e he := (List.mem_append.mp he).elim (hP.wf e) (hQ.wf e)
  raceFree r hr := (hP.raceFree r hr).andThen (hQ.raceFree r hr)

omit [DecidableEq β] [DecidablePred R] in
/-- Calls made one after the other by all processes. -/
theorem inTurn {γ : Type*} {cs : List γ} {P : γ → ι → Prog ι β α}
    {C : γ → Script ι β α} (h : ∀ c ∈ cs, Schedule R (P c) (C c)) :
    Schedule R (fun r => Prog.inTurn (cs.map fun c => P c r)) (cs.flatMap C) where
  performs r hr := by
    rw [Script.project_flatMap]
    induction cs with
    | nil => exact .done
    | cons c cs ih =>
        exact ((h c List.mem_cons_self).performs r hr).bind
          (ih fun c' hc' => h c' (List.mem_cons_of_mem c hc'))
  wf e he := by
    obtain ⟨c, hc, hec⟩ := List.mem_flatMap.mp he
    exact (h c hc).wf e hec
  raceFree r hr := by
    refine Prog.raceFree_inTurn fun p hp => ?_
    obtain ⟨c, hc, rfl⟩ := List.mem_map.mp hp
    exact (h c hc).raceFree r hr

omit [DecidableEq ι] [DecidableEq β] in
/-- Processes outside `R` have returned from the start. -/
theorem finished_outside {r : ι} (hr : ¬ R r) (m : ι → Mem β α) :
    (start (team R P) m r).Finished :=
  ⟨true, rfl, by simp [start, team, hr]⟩

variable (h : Schedule R P C) (m : ι → Mem β α)
include h

omit [DecidableEq β] in
theorem raceFree_team (r : ι) : (team R P r).RaceFree := by
  by_cases hr : R r
  · simpa [team, hr] using h.raceFree r hr
  · simp [team, hr]

omit [DecidableEq β] in
/-- The processes begin with the whole script before them. -/
theorem awaits_start : Awaits C m (start (team R P) m) where
  performs r := by
    by_cases hr : R r
    · simpa [start, team, hr] using h.performs r hr
    · have hnil : Script.project r C = [] :=
        List.flatMap_eq_nil_iff.mpr fun e he => (h.wf e he).project_eq_nil hr
      simpa [start, team, hr, hnil] using Performs.done
  mem := rfl

/-- The script is one complete run, in which meeting transfers match. -/
theorem exists_run : ∃ ls t,
    Run Rendezvous.step (Following C m) (start (team R P) m) ls t ∧
      (∀ r, (t r).Returned true) ∧ ∀ r, (t r).mem = Script.exec C m r := by
  obtain ⟨ls, t, hrun, hret, hmem⟩ := MiniCcl.exists_run h.wf (h.awaits_start m)
  exact ⟨ls, t, hrun, hret, congrFun hmem⟩

theorem exists_matched_run : ∃ ls t,
    Run Rendezvous.step Rendezvous.Matched (start (team R P) m) ls t ∧
      (∀ r, (t r).Returned true) ∧ ∀ r, (t r).mem = Script.exec C m r := by
  obtain ⟨ls, t, hrun, hret, hmem⟩ := h.exists_run m
  exact ⟨ls, t, hrun.mono And.left, hret, hmem⟩

/-! #### Every run under rendezvous -/

/-- **No deadlock**: while some process has not returned, the network can move. -/
theorem progress {s : ι → Node ι β α}
    (hs : Rendezvous.step.Reaches (start (team R P) m) s) (hr : ∃ r, ¬ (s r).Finished) :
    ∃ a t, Rendezvous.step s a t := by
  obtain ⟨ls, t, hrun, hret, -⟩ := h.exists_matched_run m
  refine Rendezvous.commuting.progress (raceFree_start h.raceFree_team m) hrun
    (Rendezvous.terminal_of_finished fun r => ⟨true, hret r⟩) hs ?_
  rintro rfl
  obtain ⟨r, hr⟩ := hr
  exact hr ⟨true, hret r⟩

/-- **Meeting transfers match**: whenever a `Send` and a `Recv` stand opposite
each other, they are of the same length. -/
theorem matched {s : ι → Node ι β α}
    (hs : Rendezvous.step.Reaches (start (team R P) m) s) {i j : ι} (hij : i ≠ j)
    {x y : Xfer ι β} (hx : (s i).find (.send, j) = some x)
    (hy : (s j).find (.recv, i) = some y) :
    x.slice.len = y.slice.len ∧ x.width = y.width := by
  obtain ⟨ls, t, hrun, hret, -⟩ := h.exists_matched_run m
  exact Rendezvous.commuting.enabled (raceFree_start h.raceFree_team m) hrun
    (Rendezvous.terminal_of_finished fun r => ⟨true, hret r⟩) hs
    (Rendezvous.step_comm hij hx hy) x y hx hy

/-- A state in which all processes of `R` have returned is the end of the
script: everything is joined, all returned `true`, and the memories are those
of the sequential reading. -/
theorem quiet {s : ι → Node ι β α}
    (hs : Rendezvous.step.Reaches (start (team R P) m) s)
    (hdone : ∀ r, R r → (s r).Finished) (r : ι) :
    (s r).Returned true ∧ (s r).mem = Script.exec C m r := by
  obtain ⟨ls, t, hrun, hret, hmem⟩ := h.exists_matched_run m
  have hall : ∀ q, (s q).Finished := by
    intro q
    by_cases hq : R q
    · exact hdone q hq
    · have hstart : (start (team R P) m q).Finished := finished_outside hq m
      rw [Rendezvous.frozen hs hstart]
      exact hstart
  have hst : s = t := Rendezvous.commuting.eq_of_terminal (raceFree_start h.raceFree_team m)
    hrun (Rendezvous.terminal_of_finished fun q => ⟨true, hret q⟩) hs
    (Rendezvous.terminal_of_finished hall)
  exact hst ▸ ⟨hret r, hmem r⟩

/-! #### Every run over channels -/

/-- The script is a run over channels too, and a process that takes a local step in it is
between two events. -/
theorem exists_between_run : ∃ ls t,
    Run Fifo.step (fun s a => ∀ q, a = .act q → Between C m q (s.node q))
        (Fifo.init (team R P) m) ls ⟨t, fun _ _ => ([] : List α)⟩ ∧
      (∀ r, (t r).Returned true) ∧ ∀ r, (t r).mem = Script.exec C m r := by
  obtain ⟨ls, t, hrun, hret, hmem⟩ := h.exists_run m
  obtain ⟨ls', hls'⟩ := hrun.simulate (f := fun s => Fifo.mk s fun _ _ => [])
    fun hstep ⟨hmatch, D, E, hC, hawaits⟩ => Fifo.run_of_rendezvous (K := Between C m) hstep
      hmatch fun q _ => ⟨D, E, hC, hawaits.performs q, congrFun hawaits.mem q⟩
  exact ⟨ls', t, hls', hret, hmem⟩

theorem exists_fifo_run : ∃ ls t,
    Run Fifo.step (fun _ _ => True) (Fifo.init (team R P) m) ls
        ⟨t, fun _ _ => ([] : List α)⟩ ∧
      (∀ r, (t r).Returned true) ∧ ∀ r, (t r).mem = Script.exec C m r := by
  obtain ⟨ls, t, hrun, hret, hmem⟩ := h.exists_between_run m
  exact ⟨ls, t, hrun.mono fun _ => trivial, hret, hmem⟩

/-- Some run over channels is complete. -/
theorem exists_completed : ∃ s : Fifo ι β α,
    Fifo.step.Reaches (Fifo.init (team R P) m) s ∧ ∀ r, (s.node r).Returned true := by
  obtain ⟨ls, t, hrun, hret, -⟩ := h.exists_fifo_run m
  exact ⟨_, hrun.reaches, hret⟩

/-- **Determinism**: in every completed run over channels, in whatever order the
steps were taken, all processes returned `true`, the memories are those of the
sequential reading of the script, and nothing is left in transit. -/
theorem completed {s : Fifo ι β α}
    (hs : Fifo.step.Reaches (Fifo.init (team R P) m) s)
    (hdone : ∀ r, R r → (s.node r).Finished) :
    (∀ r, (s.node r).Returned true ∧ (s.node r).mem = Script.exec C m r) ∧
      ∀ i j, s.chan i j = [] := by
  obtain ⟨ls, t, hrun, hret, hmem⟩ := h.exists_fifo_run m
  have hall : ∀ q, (s.node q).Finished := by
    intro q
    by_cases hq : R q
    · exact hdone q hq
    · have hstart : ((Fifo.init (team R P) m).node q).Finished := finished_outside hq m
      rw [Fifo.frozen hs hstart]
      exact hstart
  have hst : s = ⟨t, fun _ _ => []⟩ :=
    Fifo.commuting.eq_of_terminal (raceFree_start h.raceFree_team m) hrun
      (Fifo.terminal_of_finished fun q => ⟨true, hret q⟩) hs (Fifo.terminal_of_finished hall)
  subst hst
  exact ⟨fun r => ⟨hret r, hmem r⟩, fun _ _ => rfl⟩

omit m in
/-- **Processes that perform a script are balanced.** -/
theorem balanced : Balanced R P where
  progress m s hs hr := by
    obtain ⟨r, -, hr⟩ := hr
    exact h.progress m hs ⟨r, hr⟩
  matched m s hs i j hij x y hx hy := by
    obtain ⟨hlen, hwidth⟩ := h.matched m hs hij hx hy
    rw [Xfer.bytes, Xfer.bytes, hlen, hwidth]
  quiet m s hs hdone r := (h.quiet m hs hdone r).1
  drained m s hs hdone := (h.completed m hs hdone).2

end Schedule

end MiniCcl
