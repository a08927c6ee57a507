/-
MiniCcl/Links.lean

A rank only sends to its neighbours.

The collectives name their peers by arithmetic on ranks, and `InitTransports` connects
what `GetNeighbors` lists.  A script is along a relation if every message of it is between
two processes that the relation holds of; like the cells that a script keeps, this goes by
the patterns that scripts are made of.  Every operation of a session is along the
neighbours (`Operation.along_script`), and so is every transfer that is outstanding in a
state of a run (`exists_link_of_find`).
-/
import MiniCcl.Position
import MiniCcl.Sessions

namespace MiniCcl

variable {ι β α : Type*}

/-! ### Scripts along a relation -/

/-- The event is not a message, or one between processes that `L` holds of. -/
def Event.Along (L : ι → ι → Prop) : Event ι β α → Prop
  | comm i _ j _ _ => L i j
  | act _ _ => True

namespace Script

variable {L : ι → ι → Prop}

theorem along_flatMap {γ : Type*} {xs : List γ} {C : γ → Script ι β α}
    (h : ∀ x ∈ xs, ∀ e ∈ C x, e.Along L) : ∀ e ∈ xs.flatMap C, e.Along L := by
  intro e he
  obtain ⟨x, hx, he⟩ := List.mem_flatMap.mp he
  exact h x hx e he

theorem along_append {C D : Script ι β α} (hC : ∀ e ∈ C, e.Along L) (hD : ∀ e ∈ D, e.Along L) :
    ∀ e ∈ C ++ D, e.Along L :=
  List.forall_mem_append.mpr ⟨hC, hD⟩

theorem along_locals (xs : List ι) (f : ι → Mem β α → Mem β α) :
    ∀ e ∈ locals xs f, e.Along L := by
  intro e he
  obtain ⟨q, -, rfl⟩ := List.mem_map.mp he
  trivial

theorem along_hops {next : ι → ι} {xs : List ι} {s d : ι → Slice β} {w : ℕ}
    (h : ∀ q ∈ xs, L q (next q)) :
    ∀ e ∈ (hops next xs s d w : Script ι β α), e.Along L := by
  intro e he
  obtain ⟨q, hq, rfl⟩ := List.mem_map.mp he
  exact h q hq

theorem along_chain {e : ℕ → ι} {s d : ℕ → Slice β} {w : ℕ}
    {acts : ℕ → List (Mem β α → Mem β α)} {K : ℕ} (h : ∀ p < K, L (e p) (e (p + 1))) :
    ∀ a ∈ chain e s d w acts K, a.Along L := by
  refine along_flatMap fun p hp => List.forall_mem_cons.mpr ⟨h p (List.mem_range.mp hp), ?_⟩
  intro a ha
  obtain ⟨f, -, rfl⟩ := List.mem_map.mp ha
  trivial

/-- Whoever may send to whom, the messages are those of the script. -/
theorem along_of_wf {R : ι → Prop} {C : Script ι β α} (hC : ∀ e ∈ C, e.Wf R)
    (h : ∀ i j, R i → R j → i ≠ j → L i j) : ∀ e ∈ C, e.Along L := by
  intro e he
  cases e with
  | comm i s j d w =>
      obtain ⟨hi, hj, hne, -⟩ := hC _ he
      exact h i j hi hj hne
  | act i f => trivial

/-- The part of a process names the peers that the script names. -/
theorem along_of_mem_project [DecidableEq ι] {C : Script ι β α} (hC : ∀ e ∈ C, e.Along L)
    {r : ι} {x : Xfer ι β} (hx : .xfer x ∈ project r C) :
    match x.dir with
    | .send => L r x.peer
    | .recv => L x.peer r := by
  obtain ⟨e, he, hx⟩ := List.mem_flatMap.mp hx
  have halong := hC e he
  cases e with
  | act i f =>
      rw [Event.project] at hx
      split at hx
      · cases List.mem_singleton.mp hx
      · cases hx
  | comm i s j d w =>
      rw [Event.project] at hx
      split at hx
      · next hri =>
          cases List.mem_singleton.mp hx
          exact hri ▸ halong
      · split at hx
        · next hrj =>
            cases List.mem_singleton.mp hx
            exact hrj ▸ halong
        · cases hx

end Script

/-! ### The ring -/

namespace TopologyRing

/-- The other rank is the one before or the one after. -/
def Adjacent (n i j : ℕ) : Prop := j = getPrevRank n i ∨ j = getNextRank n i

section Rooted

variable {n root : ℕ}

theorem adjacent_rankAt (p : ℕ) : Adjacent n (rankAt n root p) (rankAt n root (p + 1)) :=
  .inr (getNextRank_rankAt n root p).symm

variable (hn : 2 ≤ n)
include hn

theorem adjacent_rankFrom {p : ℕ} (hp : p < n - 1) :
    Adjacent n (rankFrom n root p) (rankFrom n root (p + 1)) := by
  refine .inl ?_
  rw [rankFrom, rankFrom, show n - 1 - p = n - 1 - (p + 1) + 1 by omega,
    getPrevRank_rankAt (by omega) root]

variable (count w : ℕ)

omit hn in
theorem along_broadcastScript (buffer : ℕ → Buf) :
    ∀ e ∈ (broadcastScript n count w root buffer : Script ℕ Buf α), e.Along (Adjacent n) :=
  Script.along_chain fun p _ => adjacent_rankAt p

theorem along_gatherScript (sendBuf recvBuf : ℕ → Buf) :
    ∀ e ∈ (gatherScript n count w root sendBuf recvBuf : Script ℕ Buf α),
      e.Along (Adjacent n) :=
  Script.along_append (Script.along_locals _ _)
    (Script.along_chain fun _ hp => adjacent_rankFrom hn hp)

omit hn in
theorem along_scatterScript (sendBuf recvBuf : ℕ → Buf) :
    ∀ e ∈ (scatterScript n count w root sendBuf recvBuf : Script ℕ Buf α),
      e.Along (Adjacent n) :=
  List.forall_mem_cons.mpr ⟨trivial, Script.along_flatMap fun _ _ =>
    Script.along_chain fun p _ => adjacent_rankAt p⟩

theorem along_reduceScript (sendBuf recvBuf : ℕ → Buf) (red : Reducer α) :
    ∀ e ∈ reduceScript n count w root sendBuf recvBuf red, e.Along (Adjacent n) :=
  Script.along_append (Script.along_locals _ _)
    (Script.along_chain fun _ hp => adjacent_rankFrom hn hp)

end Rooted

section Symmetric

variable {n : ℕ} (count w : ℕ)

theorem along_allGatherScript (sendBuf recvBuf : ℕ → Buf) :
    ∀ e ∈ (allGatherScript n count w sendBuf recvBuf : Script ℕ Buf α), e.Along (Adjacent n) :=
  Script.along_append (Script.along_locals _ _)
    (Script.along_flatMap fun _ _ => Script.along_hops fun _ _ => .inr rfl)

theorem along_allReduceScript (sendBuf recvBuf : ℕ → Buf) (red : Reducer α) :
    ∀ e ∈ allReduceScript n count w sendBuf recvBuf red, e.Along (Adjacent n) := by
  rw [allReduceScript]
  split
  · next htwo =>
      subst htwo
      refine Script.along_append (Script.along_locals _ _)
        (Script.along_append (Script.along_hops fun _ _ => .inr rfl) (Script.along_locals _ _))
  · refine Script.along_append (Script.along_locals _ _) (Script.along_append ?_ ?_)
    · exact Script.along_flatMap fun _ _ =>
        Script.along_append (Script.along_hops fun _ _ => .inr rfl) (Script.along_locals _ _)
    · exact Script.along_flatMap fun _ _ => Script.along_hops fun _ _ => .inr rfl

theorem along_allToAllScript (sendBuf recvBuf : ℕ → Buf) :
    ∀ e ∈ (allToAllScript n count w sendBuf recvBuf : Script ℕ Buf α), e.Along (Adjacent n) :=
  Script.along_append (Script.along_locals _ _) <| Script.along_flatMap fun _ _ =>
    Script.along_append (Script.along_locals _ _)
      (Script.along_append (along_broadcastScript _ _ _) (Script.along_locals _ _))

theorem along_barrierScript :
    ∀ e ∈ (barrierScript n : Script ℕ Buf α), e.Along (Adjacent n) := by
  have hround : ∀ e ∈ (barrierRoundScript n : Script ℕ Buf α), e.Along (Adjacent n) :=
    Script.along_hops fun _ _ => .inr rfl
  exact Script.along_append hround hround

end Symmetric

/-- **On the ring data goes from a rank to the one before it or the one after it.** -/
theorem along_callScript {n : ℕ} (hn : 2 ≤ n) (c : Call α) :
    ∀ e ∈ callScript n c, e.Along (Adjacent n) := by
  cases c with
  | broadcast => exact along_broadcastScript _ _ _
  | gather => exact along_gatherScript hn _ _ _ _
  | scatter => exact along_scatterScript _ _ _ _
  | reduce => exact along_reduceScript hn _ _ _ _ _
  | allGather => exact along_allGatherScript _ _ _ _
  | reduceScatter =>
      exact Script.along_append (along_reduceScript hn _ _ _ _ _) (along_scatterScript _ _ _ _)
  | allReduce => exact along_allReduceScript _ _ _ _ _
  | allToAll => exact along_allToAllScript _ _ _ _
  | barrier => exact along_barrierScript

end TopologyRing

/-! ### Sessions -/

section Session

variable {topology : TopologyType} {n : ℕ} (hn : 2 ≤ n)
include hn

theorem Operation.along_script {o : Operation α} (ho : o.Valid n) :
    ∀ e ∈ o.script topology n, e.Along fun i j => j ∈ topology.getNeighbors n i := by
  cases o with
  | collective c =>
      cases topology with
      | ring =>
          intro e he
          have halong := TopologyRing.along_callScript hn c e he
          cases e with
          | comm i s j d w => exact TopologyType.mem_ring_getNeighbors.mpr halong
          | act i f => trivial
      | fullMesh =>
          refine Script.along_of_wf (Operation.wf_script hn ho) fun i j _ hj hne => ?_
          exact TopologyFullMesh.mem_peersOf.mpr ⟨hj, hne.symm⟩
  | message source dest sendBuf recvBuf count dtype =>
      rw [script]
      split
      · next hlink => exact List.forall_mem_singleton.mpr hlink
      · exact fun e he => absurd he List.not_mem_nil

/-- **In every run of a session, whoever is about to send or receive does so to or from a
neighbour.** -/
theorem exists_link_of_find {ops : List (Operation α)} (hops : ∀ o ∈ ops, o.Valid n)
    {m : ℕ → RankMem α} {s : Fifo ℕ Buf α}
    (hs : Fifo.step.Reaches (Fifo.init (topology.sessionTeam n ops) m) s) {r : ℕ} {k : Dir × ℕ}
    {op : Xfer ℕ Buf} (hop : (s.node r).find k = some op) :
    r < n ∧ k.2 ∈ topology.getNeighbors n r := by
  have hschedule := topology.schedule_operations hn hops
  have hperm := (hschedule.awaits_start m).performs r
  have hmem := hperm.perm.mem_iff.mp
    (((Fifo.positions_of_reaches hschedule hs).within r).mem_of_find hop)
  have halong : ∀ e ∈ ops.flatMap (Operation.script topology n),
      e.Along fun i j => j ∈ topology.getNeighbors n i ∧ i ∈ topology.getNeighbors n j := by
    refine Script.along_flatMap fun o ho e he => ?_
    have hlink := Operation.along_script hn (hops o ho) e he
    cases e with
    | comm i s j d w =>
        have hi := (Operation.wf_script hn (hops o ho) _ he).1
        exact ⟨hlink, TopologyType.mem_getNeighbors_of_mem hi hlink⟩
    | act i f => trivial
  have hlink := Script.along_of_mem_project halong hmem
  obtain rfl : op.key = k := Node.key_of_find hop
  have hr : r < n := by
    by_contra hr
    have hnil : Script.project r (ops.flatMap (Operation.script topology n)) = [] :=
      List.flatMap_eq_nil_iff.mpr fun e he => (hschedule.wf e he).project_eq_nil hr
    rw [hnil] at hmem
    exact absurd hmem List.not_mem_nil
  refine ⟨hr, ?_⟩
  cases hdir : op.dir with
  | send =>
      rw [hdir] at hlink
      exact hlink.1
  | recv =>
      rw [hdir] at hlink
      exact hlink.2

end Session

end MiniCcl
