/-
MiniCcl/Confluence.lean

Labelled transition systems whose distinct enabled steps commute.

Every process of a network is sequential up to fork and join, and every
channel has one writer and one reader.  In such a system a step that is
enabled stays enabled until it is taken, and two steps taken in either order
lead to the same state.  A single complete run then says everything about all
runs (`Commuting.run_of_reaches`):

* every reachable state can still reach the end of that run;
* a reachable state that is not the end has a successor (no deadlock);
* a reachable state without a successor is the end (determinism);
* complete runs take the same steps, in different orders (`Commuting.exists_rest`);
* a predicate of enabled steps that other steps do not change, and that holds
  of every step of the one run, holds of every step enabled anywhere.

The predicate is the parameter `P`, and `I` is an invariant under which steps
commute.  Nothing here is about messages: the two network semantics of
`Network.lean` are the instances.
-/
import Mathlib.Data.List.Perm.Basic
import Mathlib.Logic.Relation
import Mathlib.Tactic.TypeStar
import Mathlib.Data.Nat.Notation
import Mathlib.Tactic.Push

namespace MiniCcl

variable {σ ℓ : Type*}

/-- A labelled transition system with states `σ` and labels `ℓ`. -/
abbrev Lts (σ ℓ : Type*) := σ → ℓ → σ → Prop

namespace Lts

/-- One step, whatever its label. -/
def Step (T : Lts σ ℓ) (s t : σ) : Prop := ∃ a, T s a t

/-- Zero or more steps. -/
def Reaches (T : Lts σ ℓ) : σ → σ → Prop := Relation.ReflTransGen T.Step

/-- No step leaves `s`. -/
def Terminal (T : Lts σ ℓ) (s : σ) : Prop := ∀ a t, ¬ T s a t

/-- `Run T P s l t`: the labels `l`, taken in order, lead from `s` to `t`,
and each of them satisfies `P` in the state where it is taken. -/
inductive Run (T : Lts σ ℓ) (P : σ → ℓ → Prop) : σ → List ℓ → σ → Prop
  | nil (s : σ) : Run T P s [] s
  | cons {s t u : σ} {a : ℓ} {l : List ℓ} :
      T s a t → P s a → Run T P t l u → Run T P s (a :: l) u

variable {T : Lts σ ℓ} {I : σ → Prop} {P : σ → ℓ → Prop}

theorem Run.append {s t u : σ} {l l' : List ℓ} (h : Run T P s l t)
    (h' : Run T P t l' u) : Run T P s (l ++ l') u := by
  induction h with
  | nil => exact h'
  | cons hstep hp _ ih => exact .cons hstep hp (ih h')

theorem Run.single {s t : σ} {a : ℓ} (h : T s a t) (hp : P s a) :
    Run T P s [a] t :=
  .cons h hp (.nil t)

theorem Run.reaches {s t : σ} {l : List ℓ} (h : Run T P s l t) :
    T.Reaches s t := by
  induction h with
  | nil => exact Relation.ReflTransGen.refl
  | cons hstep _ _ ih => exact Relation.ReflTransGen.head ⟨_, hstep⟩ ih

theorem Reaches.exists_run {s t : σ} (h : T.Reaches s t) :
    ∃ l, Run T (fun _ _ => True) s l t := by
  induction h with
  | refl => exact ⟨[], .nil s⟩
  | tail _ hstep ih =>
      obtain ⟨l, hl⟩ := ih
      obtain ⟨a, hstep⟩ := hstep
      exact ⟨l ++ [a], hl.append (.single hstep trivial)⟩

/-- If a predicate comes to hold in a run, some step of the run brings it about. -/
theorem Run.exists_crossing {J : σ → Prop} {s t : σ} {l : List ℓ} (h : Run T P s l t)
    (hs : ¬ J s) (ht : J t) : ∃ l₁ u a v l₂, l = l₁ ++ a :: l₂ ∧ Run T P s l₁ u ∧ ¬ J u ∧
      T u a v ∧ P u a ∧ J v ∧ Run T P v l₂ t := by
  induction h with
  | nil s => exact absurd ht hs
  | @cons s v t a l hstep hp hrest ih =>
      by_cases hv : J v
      · exact ⟨[], s, a, v, l, rfl, .nil s, hs, hstep, hp, hv, hrest⟩
      · obtain ⟨l₁, u, b, w, l₂, rfl, hrun, hcross⟩ := ih hv ht
        exact ⟨a :: l₁, u, b, w, l₂, rfl, .cons hstep hp hrun, hcross⟩

theorem Reaches.exists_crossing {J : σ → Prop} {s t : σ} (h : T.Reaches s t) (hs : ¬ J s)
    (ht : J t) : ∃ u a v, T.Reaches s u ∧ ¬ J u ∧ T u a v ∧ J v := by
  obtain ⟨l, hl⟩ := h.exists_run
  obtain ⟨l₁, u, a, v, l₂, -, hrun, hu, hstep, -, hv, -⟩ := hl.exists_crossing hs ht
  exact ⟨u, a, v, hrun.reaches, hu, hstep, hv⟩

/-- What one step preserves, and what follows for the step, over a whole run. -/
theorem Run.preserve {J : σ → Prop} {Q : σ → ℓ → Prop}
    (hstep : ∀ {s a t}, J s → T s a t → P s a → J t ∧ Q s a) {s t : σ} {l : List ℓ}
    (hs : J s) (h : Run T P s l t) : Run T Q s l t ∧ J t := by
  induction h with
  | nil s => exact ⟨.nil s, hs⟩
  | cons ha hp _ ih =>
      obtain ⟨ht, hq⟩ := hstep hs ha hp
      obtain ⟨hrun, hend⟩ := ih ht
      exact ⟨.cons ha hq hrun, hend⟩

theorem Run.mono {Q : σ → ℓ → Prop} (hPQ : ∀ {s a}, P s a → Q s a) {s t : σ} {l : List ℓ}
    (h : Run T P s l t) : Run T Q s l t := by
  induction h with
  | nil s => exact .nil s
  | cons ha hp _ ih => exact .cons ha (hPQ hp) ih

/-- A predicate that holds before every step and at the end holds at the start. -/
theorem Run.start {J : σ → Prop} {s t : σ} {l : List ℓ} (h : Run T (fun s _ => J s) s l t)
    (ht : J t) : J s := by
  cases h with
  | nil => exact ht
  | cons _ hs _ => exact hs

/-- Suppose that a step keeps `J` if and only if it satisfies `P`.  Then a run stays
within `J` if and only if all its steps satisfy `P`. -/
theorem Run.keeps_iff {J : σ → Prop}
    (hI : ∀ {s a t}, I s → T s a t → J t → I t)
    (hJ : ∀ {s a t}, I s → J s → T s a t → (J t ↔ P s a)) {s t : σ} {l : List ℓ}
    (hs : I s) (hJs : J s) : Run T (fun s _ => J s) s l t ∧ J t ↔ Run T P s l t := by
  constructor
  · rintro ⟨hrun, ht⟩
    induction hrun with
    | nil s => exact .nil s
    | cons hstep hs' hrest ih =>
        have hnext := hrest.start ht
        exact .cons hstep ((hJ hs hs' hstep).mp hnext) (ih (hI hs hstep hnext) hnext ht)
  · intro hrun
    induction hrun with
    | nil s => exact ⟨.nil s, hJs⟩
    | cons hstep hp _ ih =>
        have hnext := (hJ hs hJs hstep).mpr hp
        obtain ⟨hrun, hend⟩ := ih (hI hs hstep hnext) hnext
        exact ⟨.cons hstep hJs hrun, hend⟩

/-- If every step decreases a measure, then the measure of the start bounds the
length of every run. -/
theorem Run.length_add_le {J : σ → Prop} {f : σ → ℕ}
    (hstep : ∀ {s a t}, J s → T s a t → P s a → J t ∧ f t < f s) {s t : σ} {l : List ℓ}
    (hs : J s) (h : Run T P s l t) : l.length + f t ≤ f s := by
  induction h with
  | nil s => exact Nat.le_of_eq (Nat.zero_add _)
  | @cons s t u a l ha hp _ ih =>
      obtain ⟨ht, hlt⟩ := hstep hs ha hp
      have hrest := ih ht
      rw [List.length_cons]
      omega

/-- If every step decreases a measure, then some run cannot be continued. -/
theorem Run.exists_stuck {J : σ → Prop} {f : σ → ℕ}
    (hstep : ∀ {s a t}, J s → T s a t → P s a → J t ∧ f t < f s) {s : σ} (hs : J s) :
    ∃ l t, Run T P s l t ∧ ∀ a u, T t a u → ¬ P t a := by
  induction hn : f s using Nat.strongRecOn generalizing s with
  | _ n ih =>
      by_cases hstuck : ∀ a u, T s a u → ¬ P s a
      · exact ⟨[], s, .nil s, hstuck⟩
      · push Not at hstuck
        obtain ⟨a, u, ha, hp⟩ := hstuck
        obtain ⟨hu, hlt⟩ := hstep hs ha hp
        obtain ⟨l, t, hrun, ht⟩ := ih (f u) (hn ▸ hlt) hu rfl
        exact ⟨a :: l, t, .cons ha hp hrun, ht⟩

/-- Simulation of runs: if every step of `T` that satisfies `P` is mirrored by
a run of `T'` between the images, then so is every run. -/
theorem Run.simulate {σ' ℓ' : Type*} {T' : Lts σ' ℓ'} {P' : σ' → ℓ' → Prop}
    {f : σ → σ'}
    (hstep : ∀ {s a t}, T s a t → P s a → ∃ l, Run T' P' (f s) l (f t))
    {s t : σ} {l : List ℓ} (h : Run T P s l t) :
    ∃ l', Run T' P' (f s) l' (f t) := by
  induction h with
  | nil s => exact ⟨[], .nil _⟩
  | cons h hp _ ih =>
      obtain ⟨l₁, h₁⟩ := hstep h hp
      obtain ⟨l₂, h₂⟩ := ih
      exact ⟨l₁ ++ l₂, h₁.append h₂⟩

/-- Distinct enabled steps commute on the states of the invariant `I`, and
taking one of them changes neither the other nor whether it satisfies `P`. -/
structure Commuting (T : Lts σ ℓ) (I : σ → Prop) (P : σ → ℓ → Prop) : Prop where
  det : ∀ {s a t t'}, T s a t → T s a t' → t = t'
  inv : ∀ {s a t}, I s → T s a t → I t
  square : ∀ {s a b t u}, I s → a ≠ b → T s a t → T s b u →
    ∃ v, T t b v ∧ T u a v
  persist : ∀ {s a b t u}, I s → a ≠ b → T s a t → T s b u → (P t b ↔ P s b)

namespace Commuting

variable (hC : Commuting T I P)
include hC

/-- **Strip lemma.**  Against a `P`-run to a terminal state, any one step is a
step of that run taken early: it satisfies `P` and the rest of the run, without
it, still leads to the same end. -/
theorem strip_perm {s f : σ} {l : List ℓ} (hrun : Run T P s l f)
    (hf : T.Terminal f) :
    ∀ {a s'}, I s → T s a s' → P s a ∧ ∃ l', (a :: l').Perm l ∧ Run T P s' l' f := by
  classical
  induction hrun with
  | nil s =>
      intro a s' _ ha
      exact absurd ha (hf a s')
  | @cons s t u b l hb hPb hrest ih =>
      intro a s' hI ha
      by_cases hab : a = b
      · subst hab
        exact ⟨hPb, l, .refl _, (hC.det hb ha) ▸ hrest⟩
      · -- the run takes `b` first: `a` is still enabled after it
        obtain ⟨v, hs'v, htv⟩ := hC.square hI hab ha hb
        obtain ⟨hPa, l', hperm, hv⟩ := ih hf (hC.inv hI hb) htv
        refine ⟨(hC.persist hI (Ne.symm hab) hb ha).mp hPa, b :: l', ?_, ?_⟩
        · exact (List.Perm.swap b a l').trans (hperm.cons b)
        · exact .cons hs'v ((hC.persist hI hab ha hb).mpr hPb) hv

theorem strip {s f : σ} {l : List ℓ} (hrun : Run T P s l f)
    (hf : T.Terminal f) {a : ℓ} {s' : σ} (hI : I s) (ha : T s a s') :
    P s a ∧ ∃ l', Run T P s' l' f := by
  obtain ⟨hPa, l', -, hl'⟩ := hC.strip_perm hrun hf hI ha
  exact ⟨hPa, l', hl'⟩

theorem inv_of_reaches {s t : σ} (hI : I s) (h : T.Reaches s t) : I t := by
  induction h with
  | refl => exact hI
  | tail _ hstep ih => exact hC.inv ih hstep.choose_spec

/-- **Completion.**  If one `P`-run from `s` ends in a terminal state `f`, then
every state reachable from `s` has a `P`-run to `f`. -/
theorem run_of_reaches {s f t : σ} {l : List ℓ} (hI : I s)
    (hrun : Run T P s l f) (hf : T.Terminal f) (h : T.Reaches s t) :
    ∃ l', Run T P t l' f := by
  induction h with
  | refl => exact ⟨l, hrun⟩
  | tail hreach hstep ih =>
      obtain ⟨a, ha⟩ := hstep
      obtain ⟨l', hl'⟩ := ih
      exact (hC.strip hl' hf (hC.inv_of_reaches hI hreach) ha).2

/-- **Every run is a part of a complete one**, and every complete run takes the same steps
as the one run, only in another order. -/
theorem exists_rest {Q : σ → ℓ → Prop} {s f t : σ} {l l₁ : List ℓ} (hI : I s)
    (hrun : Run T P s l f) (hf : T.Terminal f) (h : Run T Q s l₁ t) :
    ∃ l₂, (l₁ ++ l₂).Perm l ∧ Run T P t l₂ f := by
  induction h generalizing l with
  | nil s => exact ⟨l, .refl l, hrun⟩
  | cons hstep _ _ ih =>
      obtain ⟨-, l', hperm, hl'⟩ := hC.strip_perm hrun hf hI hstep
      obtain ⟨l₂, hperm₂, hl₂⟩ := ih (hC.inv hI hstep) hl'
      exact ⟨l₂, (hperm₂.cons _).trans hperm, hl₂⟩

/-- No run is longer than the one run. -/
theorem length_le {Q : σ → ℓ → Prop} {s f t : σ} {l l₁ : List ℓ} (hI : I s)
    (hrun : Run T P s l f) (hf : T.Terminal f) (h : Run T Q s l₁ t) :
    l₁.length ≤ l.length := by
  obtain ⟨l₂, hperm, -⟩ := hC.exists_rest hI hrun hf h
  rw [← hperm.length_eq, List.length_append]
  exact Nat.le_add_right _ _

/-- The end of the one run is the only terminal state that can be reached. -/
theorem eq_of_terminal {s f t : σ} {l : List ℓ} (hI : I s)
    (hrun : Run T P s l f) (hf : T.Terminal f) (h : T.Reaches s t)
    (ht : T.Terminal t) : t = f := by
  obtain ⟨l', hl'⟩ := hC.run_of_reaches hI hrun hf h
  cases hl' with
  | nil => rfl
  | cons hstep _ _ => exact absurd hstep (ht _ _)

/-- **No deadlock.**  A reachable state other than the end has a successor. -/
theorem progress {s f t : σ} {l : List ℓ} (hI : I s)
    (hrun : Run T P s l f) (hf : T.Terminal f) (h : T.Reaches s t)
    (hne : t ≠ f) : ∃ a u, T t a u := by
  obtain ⟨l', hl'⟩ := hC.run_of_reaches hI hrun hf h
  cases hl' with
  | nil => exact absurd rfl hne
  | cons hstep _ _ => exact ⟨_, _, hstep⟩

/-- Every step enabled in a reachable state satisfies `P`. -/
theorem enabled {s f t u : σ} {a : ℓ} {l : List ℓ} (hI : I s)
    (hrun : Run T P s l f) (hf : T.Terminal f) (h : T.Reaches s t)
    (ha : T t a u) : P t a := by
  obtain ⟨l', hl'⟩ := hC.run_of_reaches hI hrun hf h
  exact (hC.strip hl' hf (hC.inv_of_reaches hI h) ha).1

end Commuting

end Lts

end MiniCcl
