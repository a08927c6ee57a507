/-
MiniCcl/TransportThreads.lean

The threads of one `InitTransports` call and the mutexes that they lock.

`ConnectActivePeers` and `AcceptPassivePeers` run at the same time.  Each creates one
worker thread for each of its peers, and each declares a mutex of its own, which its
workers lock around `transports[peer] = transport`.  The map is the same for both.

A worker may fail wherever the source returns early, and whether a connect, an accept or
a receive succeeds is up to the other ranks.  So two workers of one group are never in
the locked section together (`Inv.eq_of_group_eq`), and a worker of each group can be
(`exists_overlap`).
-/
import MiniCcl.InitTransports

namespace MiniCcl.TransportThreads

open Function

/-! ### Threads and states -/

/-- The functions that create workers; `transport_mutex` is a local variable of the
first and `transports_mutex` of the second. -/
inductive Group
  | connectActivePeers
  | acceptPassivePeers
  deriving DecidableEq, Repr

namespace Group

def other : Group → Group
  | connectActivePeers => acceptPassivePeers
  | acceptPassivePeers => connectActivePeers

theorem other_ne (g : Group) : g.other ≠ g := by
  cases g
  · exact Group.noConfusion
  · exact Group.noConfusion

theorem eq_other_of_ne {g g' : Group} (h : g ≠ g') : g' = g.other := by
  cases g with
  | connectActivePeers => cases g' with
    | connectActivePeers => exact absurd rfl h
    | acceptPassivePeers => rfl
  | acceptPassivePeers => cases g' with
    | connectActivePeers => rfl
    | acceptPassivePeers => exact absurd rfl h

end Group

/-- A worker thread, by its number in its group. -/
structure Thread where
  group : Group
  index : ℕ
  deriving DecidableEq, Repr

/-- Where a worker is. -/
inductive Worker
  | notCreated
  | started
  | creating
  | connecting (retry : ℕ)
  | accepting
  | receiving
  | locking (peer : ℤ)
  | inserting (peer : ℤ)
  | unlocking
  | returned
  deriving DecidableEq, Repr

namespace Worker

/-- The scope of the `lock_guard`. -/
def InSection : Worker → Prop
  | inserting _ => True
  | unlocking => True
  | _ => False

/-- The places where the source sets `error_occured` and returns. -/
def MayFail : Worker → Prop
  | creating => True
  | connecting retry => retry = 30
  | accepting => True
  | receiving => True
  | _ => False

/-- After the test of `error_occured`. -/
def first : Group → Worker
  | .connectActivePeers => creating
  | .acceptPassivePeers => accepting

/-- What a worker of a group with these peers does alone up to its lock. -/
inductive Next (peers : List ℕ) (i : ℕ) : Worker → Worker → Prop
  | create : Next peers i creating (connecting 0)
  | retry {retry : ℕ} (h : retry < 30) :
      Next peers i (connecting retry) (connecting (retry + 1))
  | connect {retry peer : ℕ} (h : retry < 30) (hpeer : peers[i]? = some peer) :
      Next peers i (connecting retry) (locking peer)
  | accept : Next peers i accepting receiving
  -- the value comes from the socket
  | recvRank (peerRank : ℤ) : Next peers i receiving (locking peerRank)

theorem MayFail.not_inSection {w : Worker} (h : w.MayFail) : ¬ w.InSection := by
  cases w <;> first | exact id | exact h.elim

theorem Next.not_inSection {peers : List ℕ} {i : ℕ} {w w' : Worker} (h : Next peers i w w') :
    ¬ w.InSection ∧ ¬ w'.InSection := by
  cases h <;> exact ⟨id, id⟩

theorem Next.ne_notCreated {peers : List ℕ} {i : ℕ} {w w' : Worker} (h : Next peers i w w') :
    w ≠ notCreated := by
  rintro rfl
  cases h

end Worker

/-- Where the thread that has called `InitTransports` is. -/
inductive Phase
  | start
  | running
  | joined
  | failed
  deriving DecidableEq, Repr

structure State where
  phase : Phase
  worker : Thread → Worker
  /-- Who holds the mutex of a group. -/
  mutex : Group → Option Thread
  errorOccurred : Bool
  /-- `Communicator::transports`, by the worker whose transport it is. -/
  transports : ℤ → Option Thread

namespace State

def init : State where
  phase := .start
  worker _ := .notCreated
  mutex _ := none
  errorOccurred := false
  transports _ := none

/-- No two threads are in the locked section. -/
def Exclusive (s : State) : Prop :=
  ∀ t u, (s.worker t).InSection → (s.worker u).InSection → t = u

end State

/-! ### Steps -/

inductive Action
  | listen
  | listenFailed
  | create (t : Thread)
  | check (t : Thread)
  | proceed (t : Thread)
  | fail (t : Thread)
  | lock (t : Thread)
  | insert (t : Thread)
  | unlock (t : Thread)
  | join
  deriving DecidableEq, Repr

inductive Step (peers : Group → List ℕ) : Lts State Action
  | listen {s : State} (h : s.phase = .start) :
      Step peers s .listen { s with phase := .running }
  | listenFailed {s : State} (h : s.phase = .start) (hpeers : peers .acceptPassivePeers ≠ []) :
      Step peers s .listenFailed { s with phase := .failed }
  -- one after the other in each group
  | create {s : State} {t : Thread} (hphase : s.phase = .running)
      (ht : t.index < (peers t.group).length) (h : s.worker t = .notCreated)
      (hprev : ∀ i < t.index, s.worker ⟨t.group, i⟩ ≠ .notCreated) :
      Step peers s (.create t) { s with worker := update s.worker t .started }
  | check {s : State} {t : Thread} (h : s.worker t = .started) :
      Step peers s (.check t) { s with
        worker := update s.worker t (if s.errorOccurred then .returned else .first t.group) }
  | proceed {s : State} {t : Thread} {w : Worker}
      (h : Worker.Next (peers t.group) t.index (s.worker t) w) :
      Step peers s (.proceed t) { s with worker := update s.worker t w }
  | fail {s : State} {t : Thread} (h : (s.worker t).MayFail) :
      Step peers s (.fail t)
        { s with worker := update s.worker t .returned, errorOccurred := true }
  -- the mutex of the group, whatever the other group does
  | lock {s : State} {t : Thread} {peer : ℤ} (h : s.worker t = .locking peer)
      (hfree : s.mutex t.group = none) :
      Step peers s (.lock t) { s with
        worker := update s.worker t (.inserting peer)
        mutex := update s.mutex t.group (some t) }
  | insert {s : State} {t : Thread} {peer : ℤ} (h : s.worker t = .inserting peer) :
      Step peers s (.insert t) { s with
        worker := update s.worker t .unlocking
        transports := update s.transports peer (some t) }
  | unlock {s : State} {t : Thread} (h : s.worker t = .unlocking) :
      Step peers s (.unlock t) { s with
        worker := update s.worker t .returned
        mutex := update s.mutex t.group none }
  | join {s : State} (h : s.phase = .running)
      (hjoin : ∀ t, t.index < (peers t.group).length → s.worker t = .returned) :
      Step peers s .join { s with phase := .joined }

/-! ### What the mutexes guarantee -/

variable {peers : Group → List ℕ}

/-- A worker is in the section exactly while it holds the mutex of its group. -/
structure Inv (peers : Group → List ℕ) (s : State) : Prop where
  holder_iff : ∀ g t, s.mutex g = some t ↔ t.group = g ∧ (s.worker t).InSection
  index_lt : ∀ t, s.worker t ≠ .notCreated → t.index < (peers t.group).length

namespace Inv

theorem init (peers : Group → List ℕ) : Inv peers .init where
  holder_iff g t := by simp [State.init, Worker.InSection]
  index_lt t h := absurd rfl h

variable {s s' : State} {t u : Thread} {w : Worker}

/-- Workers of one group exclude each other. -/
theorem eq_of_group_eq (h : Inv peers s) (hgroup : t.group = u.group)
    (ht : (s.worker t).InSection) (hu : (s.worker u).InSection) : t = u := by
  have hholds : s.mutex u.group = some t := (h.holder_iff u.group t).mpr ⟨hgroup, ht⟩
  have hholds' : s.mutex u.group = some u := (h.holder_iff u.group u).mpr ⟨rfl, hu⟩
  exact Option.some.inj (hholds.symm.trans hholds')

/-- So the section is exclusive as long as one of the two mutexes is free. -/
theorem exclusive_iff (h : Inv peers s) :
    s.Exclusive ↔ ∀ g, s.mutex g = none ∨ s.mutex g.other = none := by
  constructor
  · intro hex g
    cases hg : s.mutex g with
    | none => exact .inl rfl
    | some t =>
        cases hg' : s.mutex g.other with
        | none => exact .inr rfl
        | some u =>
            -- each holder is in the section
            obtain ⟨htg, ht⟩ := (h.holder_iff g t).mp hg
            obtain ⟨hug, hu⟩ := (h.holder_iff g.other u).mp hg'
            have hsame : t = u := hex t u ht hu
            exact absurd (hug.symm.trans (hsame ▸ htg)) g.other_ne
  · intro hfree t u ht hu
    apply h.eq_of_group_eq ?_ ht hu
    apply Decidable.byContradiction
    intro hne
    have htm := (h.holder_iff t.group t).mpr ⟨rfl, ht⟩
    have hum := (h.holder_iff u.group u).mpr ⟨rfl, hu⟩
    rw [Group.eq_other_of_ne hne] at hum
    rcases hfree t.group with hnone | hnone
    · simp [hnone] at htm
    · simp [hnone] at hum

theorem index_lt_of_worker (h : Inv peers s) (hw : s'.worker = update s.worker t w)
    (ht : t.index < (peers t.group).length) (u : Thread) (hcreated : s'.worker u ≠ .notCreated) :
    u.index < (peers u.group).length := by
  by_cases hu : u = t
  · exact hu ▸ ht
  · rw [hw, update_of_ne hu] at hcreated
    exact h.index_lt u hcreated

/-- A worker moves on its own side of the lock. -/
theorem of_worker (h : Inv peers s) (hw : s'.worker = update s.worker t w)
    (hmutex : s'.mutex = s.mutex) (hsec : w.InSection ↔ (s.worker t).InSection)
    (ht : t.index < (peers t.group).length) : Inv peers s' where
  holder_iff g u := by
    rw [hmutex, hw, h.holder_iff]
    by_cases hu : u = t
    · simp [hu, hsec]
    · rw [update_of_ne hu]
  index_lt := h.index_lt_of_worker hw ht

/-- A worker takes the free mutex of its group or gives it back. -/
theorem of_mutex (h : Inv peers s) {m : Option Thread} (hw : s'.worker = update s.worker t w)
    (hmutex : s'.mutex = update s.mutex t.group m)
    (hold : s.mutex t.group = none ∨ s.mutex t.group = some t)
    (hm : ∀ u, m = some u ↔ u = t ∧ w.InSection)
    (ht : t.index < (peers t.group).length) : Inv peers s' where
  holder_iff g u := by
    by_cases hg : g = t.group
    · subst hg
      rw [hmutex, update_self, hm, hw]
      by_cases hu : u = t
      · simp [hu]
      · -- nobody but `t` has held this mutex
        have hnot : s.mutex t.group ≠ some u := by
          rcases hold with hold | hold
          · simp [hold]
          · simpa [hold] using Ne.symm hu
        rw [update_of_ne hu, ← h.holder_iff]
        exact iff_of_false (fun hboth => hu hboth.1) hnot
    · rw [hmutex, update_of_ne hg, h.holder_iff, hw]
      by_cases hu : u = t
      · subst hu
        exact iff_of_false (fun hboth => hg hboth.1.symm) (fun hboth => hg hboth.1.symm)
      · rw [update_of_ne hu]
  index_lt := h.index_lt_of_worker hw ht

theorem step {a : Action} (h : Inv peers s) (hstep : Step peers s a s') : Inv peers s' := by
  cases hstep with
  | listen | listenFailed | join => exact ⟨h.holder_iff, h.index_lt⟩
  | create _ ht hw _ =>
      exact h.of_worker rfl rfl (by simp [hw, Worker.InSection]) ht
  | @check _ t hw =>
      refine h.of_worker rfl rfl ?_ (h.index_lt t (by simp [hw]))
      cases s.errorOccurred <;> cases t.group <;> simp [hw, Worker.InSection, Worker.first]
  | @proceed _ t w hnext =>
      obtain ⟨hbefore, hafter⟩ := hnext.not_inSection
      exact h.of_worker rfl rfl (iff_of_false hafter hbefore) (h.index_lt t hnext.ne_notCreated)
  | @fail _ t hfail =>
      have hcreated : s.worker t ≠ .notCreated := fun hw => by simp [hw, Worker.MayFail] at hfail
      exact h.of_worker rfl rfl (iff_of_false id hfail.not_inSection) (h.index_lt t hcreated)
  | @lock _ t peer hw hfree =>
      apply h.of_mutex rfl rfl (.inl hfree) ?_ (h.index_lt t (by simp [hw]))
      intro u
      simp [Worker.InSection, eq_comm]
  | @insert _ t _ hw =>
      exact h.of_worker rfl rfl (by simp [hw, Worker.InSection]) (h.index_lt t (by simp [hw]))
  | @unlock _ t hw =>
      have hholds := (h.holder_iff t.group t).mpr ⟨rfl, by simp [hw, Worker.InSection]⟩
      apply h.of_mutex rfl rfl (.inr hholds) ?_ (h.index_lt t (by simp [hw]))
      intro u
      simp [Worker.InSection]

end Inv

theorem inv_of_reaches {s : State} (h : (Step peers).Reaches .init s) : Inv peers s := by
  induction h with
  | refl => exact .init peers
  | tail _ hstep ih =>
      obtain ⟨a, ha⟩ := hstep
      exact ih.step ha

/-- The step locks the mutex of a group while a worker of the other group holds its own. -/
def State.Overlapping (s : State) (a : Action) : Prop :=
  ∃ t, a = .lock t ∧ s.mutex t.group.other ≠ none

/-- A step that changes no mutex, or frees one, keeps the section exclusive. -/
theorem exclusive_of_mutex {s s' : State} (h : Inv peers s) (h' : Inv peers s')
    (hmutex : ∀ g, s'.mutex g = s.mutex g ∨ s'.mutex g = none) (hex : s.Exclusive) :
    s'.Exclusive := by
  rw [h'.exclusive_iff]
  intro g
  rcases hmutex g with hg | hg
  · rcases hmutex g.other with hg' | hg'
    · rw [hg, hg']
      exact h.exclusive_iff.mp hex g
    · exact .inr hg'
  · exact .inl hg

theorem exclusive_lock_iff {s s' : State} {t : Thread} (h' : Inv peers s')
    (hmutex : s'.mutex = update s.mutex t.group (some t)) :
    s'.Exclusive ↔ s.mutex t.group.other = none := by
  rw [h'.exclusive_iff, hmutex]
  have hself := update_self t.group (some t) s.mutex
  have hother := update_of_ne t.group.other_ne (some t) s.mutex
  constructor
  · intro hfree
    have hnone := hfree t.group
    rw [hself, hother] at hnone
    simpa using hnone
  · intro hfree g
    by_cases hg : g = t.group
    · rw [hg, hother]
      exact .inr hfree
    · rw [Group.eq_other_of_ne (Ne.symm hg), hother]
      exact .inl hfree

theorem exclusive_step_iff {s s' : State} {a : Action} (h : Inv peers s) (hex : s.Exclusive)
    (hstep : Step peers s a s') : s'.Exclusive ↔ ¬ s.Overlapping a := by
  have h' := h.step hstep
  have hquiet {a : Action} (ha : ∀ t, a ≠ .lock t) : ¬ s.Overlapping a :=
    fun ⟨t, hlock, _⟩ => ha t hlock
  cases hstep with
  | @lock _ t peer hw hfree =>
      rw [exclusive_lock_iff h' rfl]
      simp [State.Overlapping]
  | @unlock _ t hw =>
      refine iff_of_true (exclusive_of_mutex h h' ?_ hex) (hquiet fun _ => Action.noConfusion)
      intro g
      by_cases hg : g = t.group
      · exact .inr (by simp [hg])
      · exact .inl (by simp [hg])
  | _ =>
      exact iff_of_true (exclusive_of_mutex h h' (fun _ => .inl rfl) hex)
        (hquiet fun _ => Action.noConfusion)

/-! ### Two workers in the section -/

/-- The call has created its threads, nothing has failed, and the group has not begun. -/
structure State.Fresh (s : State) (g : Group) : Prop where
  phase : s.phase = .running
  worker : s.worker ⟨g, 0⟩ = .notCreated
  mutex : s.mutex g = none
  errorOccurred : s.errorOccurred = false

/-- The state in which the first worker of the group is at `w`. -/
def State.withWorker (s : State) (g : Group) (w : Worker) : State :=
  { s with worker := update s.worker ⟨g, 0⟩ w }

@[simp] theorem State.withWorker_worker (s : State) (g : Group) (w : Worker) :
    (s.withWorker g w).worker ⟨g, 0⟩ = w := update_self ..

@[simp] theorem State.withWorker_withWorker (s : State) (g : Group) (w w' : Worker) :
    (s.withWorker g w).withWorker g w' = s.withWorker g w' := by
  simp [State.withWorker]

theorem reaches_first {s : State} {g : Group} (h : s.Fresh g) (hpeers : peers g ≠ []) :
    (Step peers).Reaches s (s.withWorker g (.first g)) := by
  have hcreate : Step peers s (.create ⟨g, 0⟩) (s.withWorker g .started) :=
    .create h.phase (List.length_pos_of_ne_nil hpeers) h.worker
      (fun i hi => absurd hi (Nat.not_lt_zero i))
  have hcheck : Step peers (s.withWorker g .started) (.check ⟨g, 0⟩)
      ((s.withWorker g .started).withWorker g
        (if s.errorOccurred then .returned else .first g)) := .check (by simp)
  rw [h.errorOccurred, State.withWorker_withWorker] at hcheck
  exact (Relation.ReflTransGen.single ⟨_, hcreate⟩).tail ⟨_, hcheck⟩

theorem reaches_proceed {s : State} {g : Group} {w w' : Worker}
    (h : Worker.Next (peers g) 0 w w') :
    (Step peers).Reaches (s.withWorker g w) (s.withWorker g w') := by
  have hstep : Step peers (s.withWorker g w) (.proceed ⟨g, 0⟩)
      ((s.withWorker g w).withWorker g w') := .proceed (by simpa using h)
  rw [State.withWorker_withWorker] at hstep
  exact .single ⟨_, hstep⟩

/-- The other ranks let the first worker come to its lock. -/
theorem exists_locking {s : State} {g : Group} (hpeers : peers g ≠ []) :
    ∃ peer, (Step peers).Reaches (s.withWorker g (.first g))
      (s.withWorker g (.locking peer)) := by
  cases g with
  | connectActivePeers =>
      obtain ⟨peer, rest, hcons⟩ := List.exists_cons_of_ne_nil hpeers
      have hcreate := @reaches_proceed peers s .connectActivePeers _ _ .create
      have hconnect := @reaches_proceed peers s .connectActivePeers (.connecting 0)
        (.locking peer) (.connect (by decide) (by simp [hcons]))
      exact ⟨peer, hcreate.trans hconnect⟩
  | acceptPassivePeers =>
      have haccept := @reaches_proceed peers s .acceptPassivePeers _ _ .accept
      have hrecv := @reaches_proceed peers s .acceptPassivePeers _ _ (.recvRank 0)
      exact ⟨0, haccept.trans hrecv⟩

/-- The first worker of a group enters the section and leaves the other group as it is. -/
theorem exists_enter {s : State} {g : Group} (h : s.Fresh g) (hpeers : peers g ≠ []) :
    ∃ s', (Step peers).Reaches s s' ∧ (s'.worker ⟨g, 0⟩).InSection
      ∧ s'.worker ⟨g.other, 0⟩ = s.worker ⟨g.other, 0⟩
      ∧ (s.Fresh g.other → s'.Fresh g.other) := by
  obtain ⟨peer, hlocking⟩ := @exists_locking peers s g hpeers
  have hlock : Step peers (s.withWorker g (.locking peer)) (.lock ⟨g, 0⟩) _ :=
    .lock (State.withWorker_worker ..) h.mutex
  have hne : (⟨g.other, 0⟩ : Thread) ≠ ⟨g, 0⟩ := fun heq => g.other_ne (congrArg Thread.group heq)
  refine ⟨_, ((reaches_first h hpeers).trans hlocking).tail ⟨_, hlock⟩, ?_, ?_, ?_⟩
  · simp [Worker.InSection]
  · simp [State.withWorker, update_of_ne hne]
  · intro hother
    refine ⟨hother.phase, ?_, ?_, hother.errorOccurred⟩
    · simpa [State.withWorker, update_of_ne hne] using hother.worker
    · simpa [State.withWorker, update_of_ne g.other_ne] using hother.mutex

theorem exists_overlap (hpeers : ∀ g, peers g ≠ []) :
    ∃ s, (Step peers).Reaches .init s ∧ ¬ s.Exclusive := by
  -- the call starts, and each group enters in turn
  have hlisten : Step peers .init .listen { State.init with phase := .running } := .listen rfl
  have hfresh (g : Group) : State.Fresh { State.init with phase := .running } g :=
    ⟨rfl, rfl, rfl, rfl⟩
  obtain ⟨s, hs, hin, -, hkeep⟩ := exists_enter (hfresh .connectActivePeers) (hpeers _)
  obtain ⟨s', hs', hin', hsame, -⟩ := exists_enter (hkeep (hfresh _)) (hpeers _)
  refine ⟨s', ((Relation.ReflTransGen.single ⟨_, hlisten⟩).trans hs).trans hs', ?_⟩
  intro hex
  have hin : (s'.worker ⟨.connectActivePeers, 0⟩).InSection := by
    rw [show s'.worker ⟨.connectActivePeers, 0⟩ = _ from hsame]
    exact hin
  have heq := hex _ _ hin hin'
  simp [Group.other] at heq

/-- A group without peers has no worker in the section. -/
theorem exclusive_of_eq_nil {s : State} (h : Inv peers s) {g : Group} (hpeers : peers g = []) :
    s.Exclusive := by
  have hfree : s.mutex g = none := by
    apply Option.eq_none_iff_forall_ne_some.mpr
    intro t ht
    obtain ⟨hgroup, hin⟩ := (h.holder_iff g t).mp ht
    have hcreated : s.worker t ≠ .notCreated := fun hw => by simp [hw, Worker.InSection] at hin
    simpa [hgroup, hpeers] using h.index_lt t hcreated
  rw [h.exclusive_iff]
  intro g'
  by_cases hg : g' = g
  · exact .inl (hg ▸ hfree)
  · exact .inr (Group.eq_other_of_ne hg ▸ hfree)

theorem exclusive_init : State.init.Exclusive := fun _ _ h => h.elim

/-- **The section is exclusive in a run if and only if no worker locks the mutex of its
group while a worker of the other group holds its own, and it is in every run if and
only if one of the groups has no workers.** -/
theorem mutual_exclusion_iff (peers : Group → List ℕ) :
    (∀ l s, (Step peers).Run (fun s _ => s.Exclusive) .init l s ∧ s.Exclusive
      ↔ (Step peers).Run (fun s a => ¬ s.Overlapping a) .init l s)
    ∧ ((∀ s, (Step peers).Reaches .init s → s.Exclusive)
      ↔ peers .connectActivePeers = [] ∨ peers .acceptPassivePeers = []) := by
  constructor
  · intro l s
    exact Lts.Run.keeps_iff (T := Step peers) (I := Inv peers) (J := State.Exclusive)
      (fun h hstep _ => h.step hstep) exclusive_step_iff (.init peers) exclusive_init
  · constructor
    · intro hall
      apply Decidable.byContradiction
      intro hne
      obtain ⟨hconnect, haccept⟩ := not_or.mp hne
      have hpeers : ∀ g, peers g ≠ []
        | .connectActivePeers => hconnect
        | .acceptPassivePeers => haccept
      obtain ⟨s, hs, hoverlap⟩ := exists_overlap hpeers
      exact hoverlap (hall s hs)
    · rintro (hnil | hnil) s hs
      · exact exclusive_of_eq_nil (inv_of_reaches hs) hnil
      · exact exclusive_of_eq_nil (inv_of_reaches hs) hnil

/-- The peers of a rank. -/
def peersOf (topology : TopologyType) (worldSize rank : ℕ) : Group → List ℕ
  | .connectActivePeers => (InitTransports.peers topology worldSize).connect rank
  | .acceptPassivePeers => (InitTransports.peers topology worldSize).accept rank

/-- The middle one of three ranks connects to the last and accepts the first. -/
theorem not_exclusive_middle_rank :
    ¬ ∀ s, (Step (peersOf .fullMesh 3 1)).Reaches .init s → s.Exclusive := by
  intro hall
  have hpeers : ∀ g, peersOf .fullMesh 3 1 g ≠ []
    | .connectActivePeers => by decide
    | .acceptPassivePeers => by decide
  obtain ⟨s, hs, hoverlap⟩ := exists_overlap hpeers
  exact hoverlap (hall s hs)

end MiniCcl.TransportThreads
