/-
MiniCcl/RdmaAutoMr.lean

`AutoMR`, which registers a memory region and deregisters it at the end of a scope.

An `AutoMR` can be moved from and assigned to, also to itself, and it can give its region
away.  A region is named by the number of the `ibv_reg_mr` call that has made it.  Over any
sequence of operations on any number of objects a region has one owner at most, and once no
object has it, it has been deregistered or released, one of the two, and once
(`region_settled_once`).
-/
import MiniCcl.Confluence
import Mathlib.Logic.Function.Basic

namespace MiniCcl.TransportRdma.AutoMR

open Function

/-! ### Objects -/

/-- The objects, and what has become of the regions. -/
structure State where
  /-- How many regions have been registered. -/
  registered : ℕ
  /-- The objects that exist, with their `mr`. -/
  object : ℕ → Option (Option ℕ)
  /-- How often `ibv_dereg_mr` has been called with a region. -/
  deregistered : ℕ → ℕ
  /-- How often `release` has returned a region. -/
  released : ℕ → ℕ

namespace State

def init : State where
  registered := 0
  object _ := none
  deregistered _ := 0
  released _ := 0

/-- Set `mr` of an object. -/
def setMr (s : State) (i : ℕ) (mr : Option ℕ) : State :=
  { s with object := update s.object i (some mr) }

/-- `mr` of an object; `nullptr` if there is none. -/
def mr (s : State) (i : ℕ) : Option ℕ := (s.object i).getD none

/-- `AutoMR::reset` -/
def reset (s : State) (i : ℕ) : State :=
  match s.mr i with
  | none => s
  | some mr =>
      { s with deregistered := update s.deregistered mr (s.deregistered mr + 1) }.setMr i none

/-- The constructor that registers a region; `ok` is whether `ibv_reg_mr` succeeds. -/
def construct (s : State) (i : ℕ) (pd addr : Bool) (length : ℕ) (ok : Bool) : State :=
  if pd && addr && decide (0 < length) && ok then
    { s with registered := s.registered + 1 }.setMr i (some s.registered)
  else s.setMr i none

/-- The move constructor. -/
def moveConstruct (s : State) (i other : ℕ) : State :=
  (s.setMr i (s.mr other)).setMr other none

/-- The move assignment. -/
def moveAssign (s : State) (i other : ℕ) : State :=
  if i ≠ other then
    ((s.reset i).setMr i ((s.reset i).mr other)).setMr other none
  else s

/-- `AutoMR::release` -/
def release (s : State) (i : ℕ) : State :=
  match s.mr i with
  | none => s
  | some mr => { s with released := update s.released mr (s.released mr + 1) }.setMr i none

/-- The destructor. -/
def destroy (s : State) (i : ℕ) : State :=
  { s.reset i with object := update (s.reset i).object i none }

end State

/-- The operations on objects. -/
inductive Op
  | construct (i : ℕ) (pd addr : Bool) (length : ℕ) (ok : Bool)
  | constructEmpty (i : ℕ)
  | moveConstruct (i other : ℕ)
  | moveAssign (i other : ℕ)
  | release (i : ℕ)
  | reset (i : ℕ)
  | destroy (i : ℕ)
  deriving DecidableEq, Repr

/-- An operation, on objects that exist; a constructor makes a new one. -/
inductive Step : Lts State Op
  | construct {s : State} {i : ℕ} (pd addr : Bool) (length : ℕ) (ok : Bool)
      (h : s.object i = none) :
      Step s (.construct i pd addr length ok) (s.construct i pd addr length ok)
  | constructEmpty {s : State} {i : ℕ} (h : s.object i = none) :
      Step s (.constructEmpty i) (s.setMr i none)
  | moveConstruct {s : State} {i other : ℕ} (h : s.object i = none)
      (hother : s.object other ≠ none) : Step s (.moveConstruct i other) (s.moveConstruct i other)
  | moveAssign {s : State} {i other : ℕ} (h : s.object i ≠ none)
      (hother : s.object other ≠ none) : Step s (.moveAssign i other) (s.moveAssign i other)
  | release {s : State} {i : ℕ} (h : s.object i ≠ none) : Step s (.release i) (s.release i)
  | reset {s : State} {i : ℕ} (h : s.object i ≠ none) : Step s (.reset i) (s.reset i)
  | destroy {s : State} {i : ℕ} (h : s.object i ≠ none) : Step s (.destroy i) (s.destroy i)

/-! ### Owners -/

/-- How often a region has been deregistered or released. -/
def State.settled (s : State) (mr : ℕ) : ℕ := s.deregistered mr + s.released mr

/-- Each of the regions `0, …, registered - 1` has one owner, or it has been settled once. -/
structure Ledger (registered : ℕ) (mr : ℕ → Option ℕ) (settled : ℕ → ℕ) : Prop where
  unique : ∀ {i j x}, mr i = some x → mr j = some x → i = j
  owned : ∀ {i x}, mr i = some x → x < registered ∧ settled x = 0
  once : ∀ {x}, x < registered → (∀ i, mr i ≠ some x) → settled x = 1
  fresh : ∀ {x}, registered ≤ x → settled x = 0

namespace Ledger

variable {registered x : ℕ} {mr : ℕ → Option ℕ} {settled : ℕ → ℕ}
  (h : Ledger registered mr settled) {i : ℕ}
include h

/-- An owner gives its region up. -/
theorem settle (hi : mr i = some x) :
    Ledger registered (update mr i none) (update settled x (settled x + 1)) where
  unique {j k y} hj hk := by
    have hji : j ≠ i := by
      rintro rfl
      rw [update_self] at hj
      cases hj
    have hki : k ≠ i := by
      rintro rfl
      rw [update_self] at hk
      cases hk
    rw [update_of_ne hji] at hj
    rw [update_of_ne hki] at hk
    exact h.unique hj hk
  owned {j y} hj := by
    have hji : j ≠ i := by
      rintro rfl
      rw [update_self] at hj
      cases hj
    rw [update_of_ne hji] at hj
    -- another owner has another region
    have hyx : y ≠ x := by
      rintro rfl
      exact hji (h.unique hj hi)
    rw [update_of_ne hyx]
    exact h.owned hj
  once {y} hy hnone := by
    by_cases hyx : y = x
    · subst hyx
      rw [update_self, (h.owned hi).2]
    · rw [update_of_ne hyx]
      refine h.once hy fun j hj => ?_
      have hji : j ≠ i := by
        rintro rfl
        exact hyx (Option.some.inj (hj.symm.trans hi))
      apply hnone j
      rw [update_of_ne hji]
      exact hj
  fresh {y} hy := by
    have hyx : y ≠ x := by
      rintro rfl
      have hlt := (h.owned hi).1
      omega
    rw [update_of_ne hyx]
    exact h.fresh hy

/-- An object that has no region gets the one of another object. -/
theorem move {other : ℕ} (hi : mr i = none) (hne : i ≠ other) :
    Ledger registered (update (update mr i (mr other)) other none) settled := by
  -- the new owner of a region stands for the old one
  have hold : ∀ {j y}, update (update mr i (mr other)) other none j = some y →
      mr (if j = i then other else j) = some y := by
    intro j y hj
    have hjo : j ≠ other := by
      rintro rfl
      rw [update_self] at hj
      cases hj
    rw [update_of_ne hjo] at hj
    by_cases hji : j = i
    · subst hji
      rw [update_self] at hj
      rw [if_pos rfl]
      exact hj
    · rw [update_of_ne hji] at hj
      rw [if_neg hji]
      exact hj
  refine ⟨fun {j k y} hj hk => ?_, fun hj => h.owned (hold hj), fun {y} hy hnone => ?_, h.fresh⟩
  · have hsame := h.unique (hold hj) (hold hk)
    have hother : ∀ {l z}, update (update mr i (mr other)) other none l = some z →
        l ≠ other := by
      rintro l z hl rfl
      rw [update_self] at hl
      cases hl
    by_cases hji : j = i
    · by_cases hki : k = i
      · rw [hji, hki]
      · rw [if_pos hji, if_neg hki] at hsame
        exact absurd hsame.symm (hother hk)
    · by_cases hki : k = i
      · rw [if_neg hji, if_pos hki] at hsame
        exact absurd hsame (hother hj)
      · rwa [if_neg hji, if_neg hki] at hsame
  · refine h.once hy fun j hj => ?_
    by_cases hjo : j = other
    · subst hjo
      apply hnone i
      rw [update_of_ne hne, update_self]
      exact hj
    · have hji : j ≠ i := by
        rintro rfl
        rw [hi] at hj
        cases hj
      apply hnone j
      rw [update_of_ne hjo, update_of_ne hji]
      exact hj

/-- A region is registered for an object that has none. -/
theorem register (hi : mr i = none) :
    Ledger (registered + 1) (update mr i (some registered)) settled := by
  have hold : ∀ {j y}, update mr i (some registered) j = some y →
      j = i ∧ y = registered ∨ j ≠ i ∧ mr j = some y := by
    intro j y hj
    by_cases hji : j = i
    · subst hji
      rw [update_self] at hj
      exact .inl ⟨rfl, (Option.some.inj hj).symm⟩
    · rw [update_of_ne hji] at hj
      exact .inr ⟨hji, hj⟩
  have hlt : ∀ {j y}, mr j = some y → y ≠ registered := fun hj => Nat.ne_of_lt (h.owned hj).1
  refine ⟨fun {j k y} hj hk => ?_, fun {j y} hj => ?_, fun {y} hy hnone => ?_,
    fun hy => h.fresh (Nat.le_of_succ_le hy)⟩
  · rcases hold hj with ⟨hji, hy⟩ | ⟨-, hj'⟩
    · rcases hold hk with ⟨hki, -⟩ | ⟨-, hk'⟩
      · rw [hji, hki]
      · exact absurd hy (hlt hk')
    · rcases hold hk with ⟨-, hy⟩ | ⟨-, hk'⟩
      · exact absurd hy (hlt hj')
      · exact h.unique hj' hk'
  · rcases hold hj with ⟨-, rfl⟩ | ⟨-, hj⟩
    · exact ⟨Nat.lt_succ_self _, h.fresh (Nat.le_refl _)⟩
    · exact ⟨Nat.lt_succ_of_lt (h.owned hj).1, (h.owned hj).2⟩
  · have hyr : y ≠ registered := by
      rintro rfl
      apply hnone i
      rw [update_self]
    refine h.once (by omega) fun j hj => ?_
    have hji : j ≠ i := by
      rintro rfl
      rw [hi] at hj
      cases hj
    apply hnone j
    rw [update_of_ne hji]
    exact hj

end Ledger

/-! ### The operations -/

def Inv (s : State) : Prop := Ledger s.registered s.mr s.settled

section Step

variable {s t : State} {i other : ℕ} {a : Op}

@[simp] theorem mr_setMr (s : State) (i : ℕ) (mr : Option ℕ) :
    (s.setMr i mr).mr = update s.mr i mr := by
  funext j
  show (update s.object i (some mr) j).getD none = update s.mr i mr j
  by_cases hj : j = i
  · subst hj
    rw [update_self, update_self]
    rfl
  · rw [update_of_ne hj, update_of_ne hj]
    rfl

theorem mr_of_object (h : s.object i = none) : s.mr i = none := by
  rw [State.mr, h]
  rfl

theorem settled_dereg (s : State) (mr : ℕ) :
    State.settled { s with deregistered := update s.deregistered mr (s.deregistered mr + 1) }
      = update s.settled mr (s.settled mr + 1) := by
  funext x
  show update s.deregistered mr _ x + s.released x = _
  by_cases hx : x = mr
  · subst hx
    rw [update_self, update_self, State.settled]
    omega
  · rw [update_of_ne hx, update_of_ne hx]
    rfl

theorem settled_release (s : State) (mr : ℕ) :
    State.settled { s with released := update s.released mr (s.released mr + 1) }
      = update s.settled mr (s.settled mr + 1) := by
  funext x
  show s.deregistered x + update s.released mr _ x = _
  by_cases hx : x = mr
  · subst hx
    rw [update_self, update_self, State.settled]
    omega
  · rw [update_of_ne hx, update_of_ne hx]
    rfl

theorem inv_init : Inv State.init := by
  have hmr : ∀ i x, State.init.mr i ≠ some x := fun _ x => (Option.some_ne_none x).symm
  exact ⟨fun hi => absurd hi (hmr _ _), fun hi => absurd hi (hmr _ _),
    fun hlt => absurd hlt (Nat.not_lt_zero _), fun _ => rfl⟩

theorem mr_reset (s : State) (i : ℕ) : (s.reset i).mr = update s.mr i none := by
  unfold State.reset
  split
  · next hmr => rw [← hmr, update_eq_self]
  · exact mr_setMr _ i none

theorem Inv.reset (h : Inv s) (i : ℕ) : Inv (s.reset i) := by
  unfold State.reset
  split
  · exact h
  · next mr hmr =>
      have hsettle := h.settle hmr
      rw [← settled_dereg] at hsettle
      show Ledger s.registered (State.mr (State.setMr _ i none)) _
      rw [mr_setMr]
      exact hsettle

theorem Inv.release (h : Inv s) (i : ℕ) : Inv (s.release i) := by
  unfold State.release
  split
  · exact h
  · next mr hmr =>
      have hsettle := h.settle hmr
      rw [← settled_release] at hsettle
      show Ledger s.registered (State.mr (State.setMr _ i none)) _
      rw [mr_setMr]
      exact hsettle

theorem Inv.setMr_none (h : Inv s) (hi : s.mr i = none) : Inv (s.setMr i none) := by
  show Ledger s.registered (State.mr (s.setMr i none)) s.settled
  rw [mr_setMr, ← hi, update_eq_self]
  exact h

theorem Inv.move (h : Inv s) (hi : s.mr i = none) (hne : i ≠ other) :
    Inv ((s.setMr i (s.mr other)).setMr other none) := by
  show Ledger s.registered (State.mr (State.setMr _ other none)) s.settled
  rw [mr_setMr, mr_setMr]
  exact Ledger.move h hi hne

theorem Inv.destroy (h : Inv s) (i : ℕ) : Inv (s.destroy i) := by
  have hmr : (s.destroy i).mr = (s.reset i).mr := by
    funext j
    show (update (s.reset i).object i none j).getD none = (s.reset i).mr j
    by_cases hj : j = i
    · subst hj
      rw [update_self, mr_reset, update_self]
      rfl
    · rw [update_of_ne hj]
      rfl
  show Ledger (s.reset i).registered (s.destroy i).mr (s.reset i).settled
  rw [hmr]
  exact h.reset i

theorem Inv.step (h : Inv s) (hstep : Step s a t) : Inv t := by
  cases hstep with
  | construct pd addr length ok hi =>
      unfold State.construct
      split
      · show Ledger (s.registered + 1) (State.mr (State.setMr _ _ (some s.registered))) s.settled
        rw [mr_setMr]
        exact Ledger.register h (mr_of_object hi)
      · exact h.setMr_none (mr_of_object hi)
  | constructEmpty hi => exact h.setMr_none (mr_of_object hi)
  | moveConstruct hi hother =>
      refine h.move (mr_of_object hi) ?_
      rintro rfl
      exact hother hi
  | @moveAssign _ i other hi hother =>
      unfold State.moveAssign
      split
      · next hne =>
          refine (h.reset i).move ?_ hne
          rw [mr_reset, update_self]
      · exact h
  | release hi => exact h.release _
  | reset hi => exact h.reset _
  | destroy hi => exact h.destroy _

theorem inv_of_reaches (h : (Step).Reaches State.init s) : Inv s := by
  induction h with
  | refl => exact inv_init
  | tail _ hstep ih =>
      obtain ⟨a, hstep⟩ := hstep
      exact ih.step hstep

end Step

/-- **A region is deregistered or released once, and not while an object has it.**  Two
objects never have the same region, and once no object exists any more, each region that has
been registered is settled. -/
theorem region_settled_once {s : State} (h : (Step).Reaches State.init s) (mr : ℕ) :
    s.deregistered mr + s.released mr ≤ 1 ∧
      (∀ i, s.object i = some (some mr) →
        s.deregistered mr = 0 ∧ s.released mr = 0 ∧
          ∀ j, s.object j = some (some mr) → j = i) ∧
      (mr < s.registered → (∀ i, s.object i = none) →
        s.deregistered mr + s.released mr = 1) := by
  have hinv := inv_of_reaches h
  have hmr : ∀ {i}, s.object i = some (some mr) → s.mr i = some mr := fun hi => by
    rw [State.mr, hi]
    rfl
  refine ⟨?_, fun i hi => ?_, fun hlt hnone => ?_⟩
  · show s.settled mr ≤ 1
    by_cases howned : ∃ i, s.mr i = some mr
    · obtain ⟨i, hi⟩ := howned
      rw [(hinv.owned hi).2]
      exact Nat.zero_le 1
    · push Not at howned
      by_cases hlt : mr < s.registered
      · exact Nat.le_of_eq (hinv.once hlt howned)
      · rw [hinv.fresh (Nat.le_of_not_lt hlt)]
        exact Nat.zero_le 1
  · have hzero : s.deregistered mr + s.released mr = 0 := (hinv.owned (hmr hi)).2
    exact ⟨by omega, by omega, fun j hj => hinv.unique (hmr hj) (hmr hi)⟩
  · refine hinv.once hlt fun i hi => ?_
    rw [mr_of_object (hnone i)] at hi
    cases hi

/-- A region is registered for one object, moved into another one and deregistered there. -/
theorem region_settled_once_two : ∃ s, (Step).Reaches State.init s ∧
    s.deregistered 0 + s.released 0 = 1 := by
  have hrun : ∃ s, (Step).Reaches State.init s ∧ 0 < s.registered ∧
      ∀ i, s.object i = none := by
    refine ⟨_, .head ⟨.construct 0 true true 8 true, .construct true true 8 true rfl⟩ <|
      .head ⟨.constructEmpty 1, .constructEmpty rfl⟩ <|
      .head ⟨.moveAssign 1 0, .moveAssign (Option.some_ne_none _) (Option.some_ne_none _)⟩ <|
      .head ⟨.destroy 0, .destroy (Option.some_ne_none _)⟩ <|
      .single ⟨.destroy 1, .destroy (Option.some_ne_none _)⟩,
      Nat.zero_lt_one, ?_⟩
    rintro (_ | _ | i) <;> rfl
  obtain ⟨s, hs, hlt, hnone⟩ := hrun
  exact ⟨s, hs, (region_settled_once hs 0).2.2 hlt hnone⟩

end MiniCcl.TransportRdma.AutoMR
