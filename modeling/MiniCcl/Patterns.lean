/-
MiniCcl/Patterns.lean

Scripts that recur in collective communication.

* `locals`: every process of a list computes.
* `hops`: every process of a list sends to its successor, in a given order.
* `chain`: a value travels along an enumeration of the processes.
* `inward` and `outward`: one process receives from, or sends to, all others.

For each pattern there is a lemma about its projection, which is what a program
is compared with, and one about its effect on the memories.  Projections are
computed by `flatMap_of_sublist`: only the few events that concern a process
are left, in the order of the script.
-/
import MiniCcl.Script

namespace MiniCcl

/-- Elements with an empty image may be left out of a `flatMap`. -/
theorem flatMap_of_sublist {γ δ : Type*} {l' l : List γ} {f : γ → List δ}
    (h : l'.Sublist l) (hnd : l.Nodup) (hf : ∀ x ∈ l, x ∉ l' → f x = []) :
    l.flatMap f = l'.flatMap f := by
  induction h with
  | slnil => rfl
  | @cons l₁ l₂ x h ih =>
      obtain ⟨hx, hnd⟩ := List.nodup_cons.mp hnd
      rw [List.flatMap_cons, hf x List.mem_cons_self fun h' => hx (h.subset h'),
        List.nil_append]
      exact ih hnd fun y hy => hf y (List.mem_cons_of_mem x hy)
  | @cons_cons l₁ l₂ x h ih =>
      obtain ⟨hx, hnd⟩ := List.nodup_cons.mp hnd
      rw [List.flatMap_cons, List.flatMap_cons, ih hnd]
      intro y hy hy'
      refine hf y (List.mem_cons_of_mem x hy) fun hmem => ?_
      rcases List.mem_cons.mp hmem with rfl | hmem
      · exact hx hy
      · exact hy' hmem

theorem range_eq_append_cons {a n : ℕ} (h : a < n) :
    List.range n = List.range a ++ a :: List.range' (a + 1) (n - 1 - a) := by
  have hn : n = a + (n - 1 - a + 1) := by omega
  calc List.range n = List.range' 0 (a + (n - 1 - a + 1)) := by rw [← hn, List.range_eq_range']
    _ = List.range' 0 a ++ List.range' (0 + a) (n - 1 - a + 1) := List.range'_append_1.symm
    _ = List.range a ++ a :: List.range' (a + 1) (n - 1 - a) := by
        rw [List.range'_succ, Nat.zero_add, ← List.range_eq_range']

theorem pair_sublist_range {a b n : ℕ} (hab : a < b) (hb : b < n) :
    [a, b].Sublist (List.range n) := by
  rw [range_eq_append_cons hb]
  exact (List.singleton_sublist.mpr (List.mem_range.mpr hab)).append
    (List.singleton_sublist.mpr List.mem_cons_self)

namespace Script

variable {ι β α : Type*} [DecidableEq ι]

/-! ### Local computations -/

/-- Every process of `L` computes. -/
def locals (L : List ι) (f : ι → Mem β α → Mem β α) : Script ι β α :=
  L.map fun r => .act r (f r)

theorem project_locals {L : List ι} (hL : L.Nodup) (f : ι → Mem β α → Mem β α)
    {r : ι} (hr : r ∈ L) : project r (locals L f) = [.act (f r)] := by
  rw [locals, project_map,
    flatMap_of_sublist (List.singleton_sublist.mpr hr) hL fun q _ hq => ?_]
  · simp [Event.project]
  · have hne : r ≠ q := fun h => hq (h ▸ List.mem_singleton_self r)
    simp [Event.project, hne]

theorem project_locals_range {n r : ℕ} (hr : r < n) (f : ℕ → Mem β α → Mem β α) :
    project r (locals (List.range n) f) = [.act (f r)] :=
  project_locals List.nodup_range f (List.mem_range.mpr hr)

theorem project_locals_of_not_mem {L : List ι} (f : ι → Mem β α → Mem β α) {r : ι}
    (hr : r ∉ L) : project r (locals L f) = [] := by
  rw [locals, project_map]
  refine List.flatMap_eq_nil_iff.mpr fun q hq => ?_
  have hne : r ≠ q := fun h => hr (h ▸ hq)
  simp [Event.project, hne]

omit [DecidableEq ι] in
theorem wf_locals {R : ι → Prop} {L : List ι} (hL : ∀ r ∈ L, R r)
    (f : ι → Mem β α → Mem β α) : ∀ e ∈ locals L f, e.Wf R := by
  intro e he
  obtain ⟨r, hr, rfl⟩ := List.mem_map.mp he
  exact hL r hr

omit [DecidableEq ι] in
theorem wf_locals_range {n : ℕ} (f : ℕ → Mem β α → Mem β α) :
    ∀ e ∈ locals (List.range n) f, e.Wf (· < n) :=
  wf_locals (fun _ => List.mem_range.mp) f

omit [DecidableEq ι] in
theorem wf_flatMap {R : ι → Prop} {γ : Type*} {xs : List γ} {C : γ → Script ι β α}
    (h : ∀ x ∈ xs, ∀ e ∈ C x, e.Wf R) : ∀ e ∈ xs.flatMap C, e.Wf R := by
  intro e he
  obtain ⟨x, hx, he⟩ := List.mem_flatMap.mp he
  exact h x hx e he

variable [DecidableEq β]

theorem exec_locals {L : List ι} (hL : L.Nodup) (f : ι → Mem β α → Mem β α)
    (m : ι → Mem β α) (r : ι) :
    exec (locals L f) m r = if r ∈ L then f r (m r) else m r := by
  induction L generalizing m with
  | nil => rfl
  | cons q L ih =>
      obtain ⟨hq, hL⟩ := List.nodup_cons.mp hL
      rw [locals, List.map_cons, exec_cons]
      refine (ih hL _).trans ?_
      by_cases hr : r = q
      · subst hr
        simp [Event.exec, hq]
      · simp [Event.exec, hr]

omit [DecidableEq ι] in
theorem exec_locals_range {n : ℕ} (f : ℕ → Mem β α → Mem β α)
    (m : ℕ → Mem β α) {r : ℕ} (hr : r < n) :
    exec (locals (List.range n) f) m r = f r (m r) := by
  rw [exec_locals List.nodup_range, if_pos (List.mem_range.mpr hr)]

/-! ### Hops: everyone to its successor -/

/-- Every process `q` of `L`, in this order, sends to `next q`. -/
def hops (next : ι → ι) (L : List ι) (s d : ι → Slice β) (w : ℕ) : Script ι β α :=
  L.map fun q => .comm q (s q) (next q) (d (next q)) w

omit [DecidableEq ι] [DecidableEq β] in
theorem wf_hops {R : ι → Prop} {next : ι → ι} {L : List ι} {s d : ι → Slice β} {w : ℕ}
    (h : ∀ q ∈ L, R q ∧ R (next q) ∧ q ≠ next q ∧ (s q).len = (d (next q)).len) :
    ∀ e ∈ (hops next L s d w : Script ι β α), e.Wf R := by
  intro e he
  obtain ⟨q, hq, rfl⟩ := List.mem_map.mp he
  exact h q hq

omit [DecidableEq β] in
/-- Only the hops from and to a process concern it. -/
theorem project_hops {next : ι → ι} {L L' : List ι} (h : L'.Sublist L) (hL : L.Nodup)
    {r : ι} (hr : ∀ q ∈ L, q = r ∨ next q = r → q ∈ L') (s d : ι → Slice β) (w : ℕ) :
    project r (hops next L s d w : Script ι β α) = project r (hops next L' s d w) := by
  rw [hops, hops, project_map, project_map]
  refine flatMap_of_sublist h hL fun q hq hq' => ?_
  have hqr : r ≠ q := fun hrq => hq' (hr q hq (.inl hrq.symm))
  have hnr : r ≠ next q := fun hrq => hq' (hr q hq (.inr hrq.symm))
  simp [Event.project, hqr, hnr]

omit [DecidableEq β] in
/-- A process before its predecessor in the order sends first. -/
theorem project_hops_send_recv {next : ι → ι} {L : List ι} (hL : L.Nodup) {r p : ι}
    (h : [r, p].Sublist L) (hp : next p = r) (hpr : p ≠ r)
    (hinj : ∀ q ∈ L, next q = r → q = p) (s d : ι → Slice β) (w : ℕ) :
    project r (hops next L s d w : Script ι β α)
      = [.xfer ⟨.send, next r, s r, w⟩, .xfer ⟨.recv, p, d r, w⟩] := by
  rw [project_hops h hL (fun q hq hqr => ?_)]
  · simp [hops, Event.project, hp, Ne.symm hpr]
  · rcases hqr with rfl | hqr
    · exact List.mem_cons_self
    · simp [hinj q hq hqr]

omit [DecidableEq β] in
/-- A process after its predecessor in the order receives first. -/
theorem project_hops_recv_send {next : ι → ι} {L : List ι} (hL : L.Nodup) {r p : ι}
    (h : [p, r].Sublist L) (hp : next p = r) (hpr : p ≠ r)
    (hinj : ∀ q ∈ L, next q = r → q = p) (s d : ι → Slice β) (w : ℕ) :
    project r (hops next L s d w : Script ι β α)
      = [.xfer ⟨.recv, p, d r, w⟩, .xfer ⟨.send, next r, s r, w⟩] := by
  rw [project_hops h hL (fun q hq hqr => ?_)]
  · simp [hops, Event.project, hp, Ne.symm hpr]
  · rcases hqr with rfl | hqr
    · simp
    · simp [hinj q hq hqr]

/-- Hops between slices that do not overlap at any process are as good as
simultaneous: everyone gets what its predecessor held before. -/
theorem exec_hops {next : ι → ι} {L : List ι} (hL : (L.map next).Nodup)
    {s d : ι → Slice β} (hsd : ∀ q ∈ L, (s q).Disjoint (d q)) (w : ℕ)
    (m : ι → Mem β α) :
    (∀ q ∈ L, exec (hops next L s d w) m (next q)
        = (m (next q)).write (d (next q)) ((m q).read (s q))) ∧
      ∀ r, r ∉ L.map next → exec (hops next L s d w) m r = m r := by
  induction L generalizing m with
  | nil => exact ⟨fun q hq => absurd hq List.not_mem_nil, fun r _ => rfl⟩
  | cons p L ih =>
      obtain ⟨hp, hL⟩ := List.nodup_cons.mp hL
      obtain ⟨ihin, ihout⟩ := ih hL (fun q hq => hsd q (List.mem_cons_of_mem p hq))
        (Event.exec (.comm p (s p) (next p) (d (next p)) w) m)
      have hexec : exec (hops next (p :: L) s d w) m
          = exec (hops next L s d w)
            (Event.exec (.comm p (s p) (next p) (d (next p)) w) m) := rfl
      refine ⟨fun q hq => ?_, fun r hr => ?_⟩
      · rcases List.mem_cons.mp hq with rfl | hq'
        · rw [hexec, ihout _ hp]
          exact Function.update_self _ _ _
        · have hne : next q ≠ next p := fun h => hp (h ▸ List.mem_map_of_mem hq')
          have hread : (Event.exec (.comm p (s p) (next p) (d (next p)) w) m q).read (s q)
              = (m q).read (s q) := by
            by_cases hqp : q = next p
            · subst hqp
              rw [Event.exec, Function.update_self]
              exact Mem.read_write_of_disjoint (hsd _ hq) _
            · rw [Event.exec, Function.update_of_ne hqp]
          rw [hexec, ihin q hq', hread, Event.exec, Function.update_of_ne hne]
      · have hrp : r ≠ next p := fun h => hr (h ▸ List.mem_cons_self)
        rw [hexec, ihout r fun h => hr (List.mem_cons_of_mem _ h), Event.exec,
          Function.update_of_ne hrp]

/-! ### Chains -/

/-- Process `e p` sends to `e (p + 1)`, which then computes. -/
def hop (e : ℕ → ι) (s d : ℕ → Slice β) (w : ℕ)
    (acts : ℕ → List (Mem β α → Mem β α)) (p : ℕ) : Script ι β α :=
  .comm (e p) (s p) (e (p + 1)) (d (p + 1)) w :: (acts (p + 1)).map (.act (e (p + 1)))

/-- The first `K` hops of a value along the enumeration `e`. -/
def chain (e : ℕ → ι) (s d : ℕ → Slice β) (w : ℕ)
    (acts : ℕ → List (Mem β α → Mem β α)) (K : ℕ) : Script ι β α :=
  (List.range K).flatMap (hop e s d w acts)

section Chain

variable {e : ℕ → ι} {N : ℕ} {s d : ℕ → Slice β} {w : ℕ}
  {acts : ℕ → List (Mem β α → Mem β α)}

omit [DecidableEq ι] [DecidableEq β] in
theorem chain_succ (K : ℕ) :
    chain e s d w acts (K + 1) = chain e s d w acts K ++ hop e s d w acts K := by
  simp [chain, List.range_succ]

omit [DecidableEq ι] [DecidableEq β] in
theorem wf_chain {R : ι → Prop} {K : ℕ} (hR : ∀ p ≤ K, R (e p))
    (hne : ∀ p < K, e p ≠ e (p + 1)) (hlen : ∀ p < K, (s p).len = (d (p + 1)).len) :
    ∀ a ∈ chain e s d w acts K, a.Wf R := by
  intro a ha
  obtain ⟨p, hp, ha⟩ := List.mem_flatMap.mp ha
  have hp := List.mem_range.mp hp
  rcases List.mem_cons.mp ha with rfl | ha
  · exact ⟨hR p (Nat.le_of_lt hp), hR (p + 1) hp, hne p hp, hlen p hp⟩
  · obtain ⟨f, -, rfl⟩ := List.mem_map.mp ha
    exact hR (p + 1) hp

variable (he : ∀ {p q}, p < N → q < N → e p = e q → p = q)
include he

omit [DecidableEq β] in
theorem project_hop {p q : ℕ} (hp : p + 1 < N) (hq : q < N) :
    project (e q) (hop e s d w acts p)
      = if q = p then [.xfer ⟨.send, e (p + 1), s p, w⟩]
        else if q = p + 1 then .xfer ⟨.recv, e p, d (p + 1), w⟩ :: (acts (p + 1)).map .act
        else [] := by
  have hacts : (acts (p + 1)).flatMap (fun f => Event.project (e q) (.act (e (p + 1)) f))
      = if q = p + 1 then (acts (p + 1)).map .act else [] := by
    by_cases hqp : q = p + 1
    · subst hqp
      simp [Event.project, List.map_eq_flatMap]
    · have hne : e q ≠ e (p + 1) := fun h => hqp (he hq hp h)
      simp [Event.project, hne, hqp]
  rw [hop, project_cons, project_map, hacts]
  by_cases hqp : q = p
  · subst hqp
    simp [Event.project]
  · have hne : e q ≠ e p := fun h => hqp (he hq (by omega) h)
    by_cases hqp' : q = p + 1
    · subst hqp'
      simp [Event.project, hne]
    · have hne' : e q ≠ e (p + 1) := fun h => hqp' (he hq hp h)
      simp [Event.project, hne, hqp, hne', hqp']

omit [DecidableEq β] in
/-- In a chain a process receives, computes and sends on; the first one only
sends and the last one only receives. -/
theorem project_chain {K q : ℕ} (hK : K < N) (hq : q < N) :
    project (e q) (chain e s d w acts K)
      = (if 0 < q ∧ q ≤ K then .xfer ⟨.recv, e (q - 1), d q, w⟩ :: (acts q).map .act else [])
        ++ if q < K then [.xfer ⟨.send, e (q + 1), s q, w⟩] else [] := by
  induction K with
  | zero => simp [chain, show ¬ (0 < q ∧ q = 0) by omega]
  | succ K ih =>
      rw [chain_succ, project_append, ih (by omega), project_hop he hK hq]
      rcases lt_trichotomy q K with hlt | rfl | hgt
      · simp [hlt, Nat.ne_of_lt hlt, Nat.le_of_lt hlt, show q ≠ K + 1 by omega,
          show q ≤ K + 1 by omega, show q < K + 1 by omega]
      · simp
      · by_cases hqK : q = K + 1
        · subst hqK
          simp [show ¬ K + 1 ≤ K by omega, show ¬ K + 1 < K by omega]
        · simp [hqK, show ¬ q ≤ K by omega, show ¬ q < K by omega, show ¬ q ≤ K + 1 by omega,
            show ¬ q < K + 1 by omega, Nat.ne_of_gt hgt]

end Chain

/-- The memory of the process at position `p` of a chain once it has received
and computed. -/
def chainMem (e : ℕ → ι) (s d : ℕ → Slice β) (acts : ℕ → List (Mem β α → Mem β α))
    (m : ι → Mem β α) : ℕ → Mem β α
  | 0 => m (e 0)
  | p + 1 => (acts (p + 1)).foldl (fun M f => f M)
      ((m (e (p + 1))).write (d (p + 1)) ((chainMem e s d acts m p).read (s p)))

theorem exec_acts (r : ι) (fs : List (Mem β α → Mem β α)) (m : ι → Mem β α) :
    exec (fs.map (.act r)) m = Function.update m r (fs.foldl (fun M f => f M) (m r)) := by
  induction fs generalizing m with
  | nil => simp
  | cons f fs ih =>
      rw [List.map_cons, exec_cons, ih]
      simp [Event.exec]

theorem exec_hop {e : ℕ → ι} {s d : ℕ → Slice β} {w : ℕ}
    {acts : ℕ → List (Mem β α → Mem β α)} (p : ℕ) (m : ι → Mem β α) :
    exec (hop e s d w acts p) m
      = Function.update m (e (p + 1)) ((acts (p + 1)).foldl (fun M f => f M)
          ((m (e (p + 1))).write (d (p + 1)) ((m (e p)).read (s p)))) := by
  rw [hop, exec_cons, exec_acts]
  simp [Event.exec]

/-- The processes of a chain end with their `chainMem`, the others are as before. -/
theorem exec_chain {e : ℕ → ι} {N : ℕ} (he : ∀ {p q}, p < N → q < N → e p = e q → p = q)
    (s d : ℕ → Slice β) (w : ℕ) (acts : ℕ → List (Mem β α → Mem β α))
    {K : ℕ} (hK : K < N) (m : ι → Mem β α) :
    (∀ q < N, exec (chain e s d w acts K) m (e q)
        = if q ≤ K then chainMem e s d acts m q else m (e q)) ∧
      ∀ r, (∀ q < N, r ≠ e q) → exec (chain e s d w acts K) m r = m r := by
  induction K with
  | zero =>
      refine ⟨fun q _ => ?_, fun r _ => rfl⟩
      by_cases hq : q = 0
      · subst hq
        rfl
      · rw [if_neg (by omega)]
        rfl
  | succ K ih =>
      obtain ⟨ihin, ihout⟩ := ih (by omega)
      refine ⟨fun q hq => ?_, fun r hr => ?_⟩
      · rw [chain_succ, exec_append, exec_hop]
        by_cases hqK : q = K + 1
        · subst hqK
          rw [Function.update_self, if_pos le_rfl, ihin (K + 1) hq, if_neg (by omega),
            ihin K (by omega), if_pos le_rfl, chainMem]
        · have hne : e q ≠ e (K + 1) := fun h => hqK (he hq hK h)
          rw [Function.update_of_ne hne, ihin q hq]
          simp only [show (q ≤ K + 1) = (q ≤ K) from propext (by omega)]
      · rw [chain_succ, exec_append, exec_hop, Function.update_of_ne (hr (K + 1) hK), ihout r hr]

/-! ### One process and all others -/

/-- The processes of `L`, in this order, send to `root`, which computes after
each of them. -/
def inward (root : ι) (L : List ι) (s d : ι → Slice β) (w : ℕ)
    (acts : ι → List (Mem β α → Mem β α)) : Script ι β α :=
  L.flatMap fun p => .comm p (s p) root (d p) w :: (acts p).map (.act root)

/-- `root` sends to the processes of `L`, in this order. -/
def outward (root : ι) (L : List ι) (s d : ι → Slice β) (w : ℕ) : Script ι β α :=
  L.map fun p => .comm root (s p) p (d p) w

section Star

variable {root : ι} {L : List ι} {s d : ι → Slice β} {w : ℕ}
  {acts : ι → List (Mem β α → Mem β α)}

omit [DecidableEq ι] [DecidableEq β] in
theorem wf_inward {R : ι → Prop} (hroot : R root) (hR : ∀ p ∈ L, R p) (hL : root ∉ L)
    (hlen : ∀ p ∈ L, (s p).len = (d p).len) : ∀ a ∈ inward root L s d w acts, a.Wf R := by
  intro a ha
  obtain ⟨p, hp, ha⟩ := List.mem_flatMap.mp ha
  rcases List.mem_cons.mp ha with rfl | ha
  · exact ⟨hR p hp, hroot, fun h => hL (h ▸ hp), hlen p hp⟩
  · obtain ⟨f, -, rfl⟩ := List.mem_map.mp ha
    exact hroot

omit [DecidableEq ι] [DecidableEq β] in
theorem wf_outward {R : ι → Prop} (hroot : R root) (hR : ∀ p ∈ L, R p) (hL : root ∉ L)
    (hlen : ∀ p ∈ L, (s p).len = (d p).len) :
    ∀ a ∈ (outward root L s d w : Script ι β α), a.Wf R := by
  intro a ha
  obtain ⟨p, hp, rfl⟩ := List.mem_map.mp ha
  exact ⟨hroot, hR p hp, fun h => hL (h ▸ hp), hlen p hp⟩

omit [DecidableEq β] in
theorem project_inward_root (hL : root ∉ L) :
    project root (inward root L s d w acts)
      = L.flatMap fun p => .xfer ⟨.recv, p, d p, w⟩ :: (acts p).map .act := by
  rw [inward, project_flatMap]
  refine List.flatMap_congr fun p hp => ?_
  have hne : root ≠ p := fun h => hL (h ▸ hp)
  rw [project_cons, project_map]
  simp [Event.project, hne, List.map_eq_flatMap]

omit [DecidableEq β] in
theorem project_inward_peer (hnd : L.Nodup) (hL : root ∉ L) {p : ι} (hp : p ∈ L) :
    project p (inward root L s d w acts) = [.xfer ⟨.send, root, s p, w⟩] := by
  have hpr : p ≠ root := fun h => hL (h ▸ hp)
  rw [inward, project_flatMap,
    flatMap_of_sublist (List.singleton_sublist.mpr hp) hnd fun q _ hq => ?_]
  · simp [Event.project, project, hpr, List.flatMap_map]
  · have hne : p ≠ q := fun h => hq (h ▸ List.mem_singleton_self p)
    simp [Event.project, project, hne, hpr, List.flatMap_map]

omit [DecidableEq β] in
theorem project_outward_root :
    project root (outward root L s d w : Script ι β α)
      = L.map fun p => .xfer ⟨.send, p, s p, w⟩ := by
  rw [outward, project_map, List.map_eq_flatMap]
  exact List.flatMap_congr fun p _ => if_pos rfl

omit [DecidableEq β] in
theorem project_outward_peer (hnd : L.Nodup) (hL : root ∉ L) {p : ι} (hp : p ∈ L) :
    project p (outward root L s d w : Script ι β α) = [.xfer ⟨.recv, root, d p, w⟩] := by
  have hpr : p ≠ root := fun h => hL (h ▸ hp)
  rw [outward, project_map,
    flatMap_of_sublist (List.singleton_sublist.mpr hp) hnd fun q _ hq => ?_]
  · simp [Event.project, hpr]
  · have hne : p ≠ q := fun h => hq (h ▸ List.mem_singleton_self p)
    simp [Event.project, hne, hpr]

/-- The root goes through what the others held from the start. -/
theorem exec_inward (hL : root ∉ L) (m : ι → Mem β α) :
    exec (inward root L s d w acts) m
      = Function.update m root (L.foldl (fun M p => (acts p).foldl (fun M f => f M)
          (M.write (d p) ((m p).read (s p)))) (m root)) := by
  induction L generalizing m with
  | nil => simp [inward]
  | cons p L ih =>
      have hp : p ≠ root := fun h => hL (h ▸ List.mem_cons_self)
      have hL' : root ∉ L := fun h => hL (List.mem_cons_of_mem p h)
      rw [inward, List.flatMap_cons, List.cons_append, exec_cons, exec_append, exec_acts]
      refine (ih hL' _).trans ?_
      have hothers : ∀ q ∈ L, q ≠ root := fun q hq h => hL' (h ▸ hq)
      simp only [Event.exec, Function.update_idem, Function.update_self, List.foldl_cons]
      congr 1
      refine List.foldl_ext _ _ _ fun M q hq => ?_
      rw [Function.update_of_ne (hothers q hq)]

end Star

end Script

end MiniCcl
