/-
MiniCcl/SessionBarrier.lean

A `Barrier` in the middle of a session.

Whatever the ranks do before and after it, with however many threads: when some rank is
through a `Barrier`, no rank has anything left to do of what comes before it
(`barrier_separates`).  The tokens of a `Barrier` cannot be told from the cells of other
messages, but they take their turn.  A rank that has received its last token has received
all that its neighbour sent until then, so the neighbour stands at that `Send` or after it.
In the full mesh that leads from any rank to rank 0, and from there to all others; on the
ring it leads down to rank 0, and once more around.
-/
import MiniCcl.Barrier
import MiniCcl.Position
import MiniCcl.Sessions

namespace MiniCcl

open Prog

variable {α : Type*}

/-! ### The batches of a session -/

theorem Prog.batches_collect (ps : List (RankProg α)) (k : List Bool → RankProg α) :
    (collect ps k).batches = ps.flatMap batches ++ (k (ps.map outcome)).batches := by
  induction ps generalizing k with
  | nil => rfl
  | cons p ps ih =>
      rw [collect, batches_bind, ih, List.flatMap_cons, List.append_assoc, List.map_cons]

theorem TopologyType.batches_session (topology : TopologyType) (n r : ℕ)
    (ops : List (Operation α)) :
    (topology.session n ops r).batches = ops.flatMap fun o => (o.run topology n r).batches := by
  rw [session, batches_collect, List.flatMap_map]
  exact List.append_nil _

/-! ### Tokens -/

namespace Barrier

/-- The transfer of a token. -/
def token (k : Dir × ℕ) : Local ℕ Buf α := .xfer ⟨k.1, k.2, ⟨.dummy, 0, 1⟩, 4⟩

/-- The transfers of one ring: rank 0 sends first. -/
def roundKeys (worldSize rank : ℕ) : List (Dir × ℕ) :=
  let prev := TopologyRing.getPrevRank worldSize rank
  let next := TopologyRing.getNextRank worldSize rank
  if rank = 0 then [(.send, next), (.recv, prev)] else [(.recv, prev), (.send, next)]

/-- The transfers of one call. -/
def keys (topology : TopologyType) (worldSize rank : ℕ) : List (Dir × ℕ) :=
  match topology with
  | .ring => roundKeys worldSize rank ++ roundKeys worldSize rank
  | .fullMesh =>
      let peers := List.range' 1 (worldSize - 1)
      if rank = 0 then peers.map (.recv, ·) ++ peers.map (.send, ·) else [(.send, 0), (.recv, 0)]

@[simp] theorem sent_token_send (j j' : ℕ) :
    (token (.send, j) : Local ℕ Buf α).sent j' = if j' = j then 1 else 0 :=
  Local.sent_of_send rfl j'

@[simp] theorem sent_token_recv (i j' : ℕ) : (token (.recv, i) : Local ℕ Buf α).sent j' = 0 :=
  Local.sent_of_recv rfl j'

@[simp] theorem received_token_recv (i i' : ℕ) :
    (token (.recv, i) : Local ℕ Buf α).received i' = if i' = i then 1 else 0 :=
  Local.received_of_recv rfl i'

@[simp] theorem received_token_send (j i' : ℕ) :
    (token (.send, j) : Local ℕ Buf α).received i' = 0 :=
  Local.received_of_send rfl i'

variable {topology : TopologyType} {n r : ℕ} (hn : 2 ≤ n) (hr : r < n)
include hn hr

theorem project_barrier :
    Script.project r (topology.callScript n .barrier)
      = (keys topology n r).map (token (α := α)) := by
  cases topology with
  | ring =>
      have hround : Script.project r (TopologyRing.barrierRoundScript n)
          = (roundKeys n r).map (token (α := α)) := by
        rw [TopologyRing.barrierRoundScript, TopologyRing.project_hops_range hn hr, roundKeys]
        split_ifs <;> rfl
      show Script.project r (TopologyRing.barrierScript n) = _
      rw [TopologyRing.barrierScript, Script.project_append, hround, keys, List.map_append]
  | fullMesh =>
      have hzero : 0 ∉ List.range' 1 (n - 1) := fun h =>
        absurd (List.mem_range'_1.mp h).1 (Nat.not_succ_le_zero 0)
      show Script.project r (TopologyFullMesh.barrierScript n) = _
      rw [TopologyFullMesh.barrierScript, Script.project_append, keys]
      by_cases hr0 : r = 0
      · subst hr0
        rw [Script.project_inward_root hzero, Script.project_outward_root, if_pos rfl,
          List.map_append, List.map_map, List.map_map, List.map_eq_flatMap (f := _ ∘ (Dir.recv, ·))]
        rfl
      · have hpeer : r ∈ List.range' 1 (n - 1) := List.mem_range'_1.mpr (by omega)
        rw [Script.project_inward_peer List.nodup_range' hzero hpeer,
          Script.project_outward_peer List.nodup_range' hzero hpeer, if_neg hr0]
        rfl

theorem flatten_batches :
    (topology.call n r (topology.neighborComm n r) .barrier : RankProg α).batches.flatten
      = (keys topology n r).map token := by
  have hperforms := (topology.schedule_call (α := α) hn (c := .barrier) trivial).performs r hr
  rw [project_barrier hn hr] at hperforms
  exact hperforms.flatten_batches (singleThreaded_barrier _)

end Barrier

/-! ### Through a barrier -/

section Through

open Barrier

variable {topology : TopologyType} {n : ℕ} (hn : 2 ≤ n) {before after : List (Operation α)}
  (hbefore : ∀ o ∈ before, o.Valid n) (hafter : ∀ o ∈ after, o.Valid n)

/-- What rank `r` has left to do, when it has done all of the barrier but the transfers `l`. -/
def Barrier.rest (topology : TopologyType) (n : ℕ) (after : List (Operation α)) (r : ℕ)
    (l : List (Dir × ℕ)) : List (Local ℕ Buf α) :=
  l.map token ++ (topology.session n after r).batches.flatten

theorem Barrier.rest_sublist {r : ℕ} {l l' : List (Dir × ℕ)} (h : l.Sublist l') :
    (rest topology n after r l).Sublist (rest topology n after r l') :=
  (h.map token).append_right _

variable (topology) in
include hn hafter in
/-- What follows the barrier is balanced. -/
theorem Barrier.tally_sent_after {i j : ℕ} (hi : i < n) (hj : j < n) :
    tally (Local.sent j) (topology.session n after i).batches.flatten
      = tally (Local.received i) (topology.session n after j).batches.flatten := by
  have hschedule := topology.schedule_operations hn hafter
  have hperm : ∀ r < n, (topology.session n after r).batches.flatten.Perm
      (Script.project r (after.flatMap (Operation.script topology n))) := fun r hr =>
    (hschedule.performs r hr).perm
  rw [tally_perm _ (hperm i hi), tally_perm _ (hperm j hj),
    Script.tally_sent_eq_received hschedule.wf]

variable {m : ℕ → RankMem α} {s : Fifo ℕ Buf α}
  (hs : Fifo.step.Reaches
    (Fifo.init (topology.sessionTeam n (before ++ .collective .barrier :: after)) m) s)

include hbefore hafter in
theorem valid_around_barrier :
    ∀ o ∈ before ++ .collective .barrier :: after, o.Valid n := by
  have hbarrier : (.collective .barrier : Operation α).Valid n := trivial
  intro o ho
  rcases List.mem_append.mp ho with ho | ho
  · exact hbefore o ho
  · exact (List.mem_cons.mp ho).elim (fun h => h ▸ hbarrier) (hafter o)

include hn hbefore hafter hs in
theorem session_positions :
    Fifo.Positions (fun r =>
      (topology.sessionTeam n (before ++ .collective .barrier :: after) r).batches) s :=
  Fifo.positions_of_reaches
    (topology.schedule_operations hn (valid_around_barrier hbefore hafter)) hs

variable (h : Fifo.Positions (fun r =>
    (topology.sessionTeam n (before ++ .collective .barrier :: after) r).batches) s)

/-- The batches of a rank. -/
theorem batches_sessionTeam {r : ℕ} (hr : r < n) :
    (topology.sessionTeam n (before ++ .collective .barrier :: after) r).batches
      = (topology.session n before r).batches
        ++ ((topology.call n r (topology.neighborComm n r) .barrier : RankProg α).batches
          ++ (topology.session n after r).batches) := by
  rw [TopologyType.sessionTeam, team, if_pos hr, TopologyType.batches_session,
    TopologyType.batches_session, TopologyType.batches_session, List.flatMap_append,
    List.flatMap_cons]
  rfl

include hn hafter h

/-- If rank `j` waits for no token of `i` that comes after a certain one, `i` stands at the
`Send` of that one or after it. -/
theorem Barrier.todo_of_heard {i j : ℕ} (hi : i < n) (hj : j < n) {l l₁ l₂ : List (Dir × ℕ)}
    (hkeys : keys topology n i = l₁ ++ (.send, j) :: l₂)
    (hpast : (s.node j).todo.Sublist (rest topology n after j l))
    (hcount : tally (Local.received i) (l.map (token (α := α)))
      ≤ tally (Local.sent j) (l₂.map (token (α := α)))) :
    (s.node i).todo.Sublist (rest topology n after i ((.send, j) :: l₂)) := by
  have hsplit : (topology.call n i (topology.neighborComm n i) .barrier
      : RankProg α).batches.flatten = l₁.map token ++ ((.send, j) :: l₂).map token := by
    rw [flatten_batches hn hi, hkeys, List.map_append]
  obtain ⟨C, hC, hflat⟩ :=
    exists_suffix_of_flatten (singleThreaded_barrier _).length_le_one hsplit
  have hsuffix : C ++ (topology.session n after i).batches
      <:+ (topology.sessionTeam n (before ++ .collective .barrier :: after) i).batches := by
    rw [batches_sessionTeam hi]
    obtain ⟨C', hC'⟩ := hC
    refine ⟨(topology.session n before i).batches ++ C', ?_⟩
    rw [← hC', List.append_assoc, List.append_assoc]
  have hrest : (C ++ (topology.session n after i).batches).flatten
      = rest topology n after i ((.send, j) :: l₂) := by
    rw [List.flatten_append, hflat, rest]
  rw [← hrest]
  refine h.todo_sublist (j := j) hsuffix ?_
  have hle := tally_le_of_sublist (Local.received i) hpast
  have hafter := tally_sent_after topology hn hafter hi hj
  rw [rest, tally_append] at hle
  rw [hrest, rest, tally_append, List.map_cons, tally_cons, sent_token_send, if_pos rfl]
  omega

/-- The full mesh: from any rank to rank 0, and from there to all others. -/
theorem Barrier.mesh_through (htop : topology = .fullMesh) {q : ℕ} (hq : q < n)
    (hpast : (s.node q).todo.Sublist (rest topology n after q [])) {p : ℕ} (hp : p < n) :
    (s.node p).todo.Sublist (rest topology n after p (keys topology n p)) := by
  subst htop
  have hpeer : ∀ {r}, r ≠ 0 → r < n → r ∈ List.range' 1 (n - 1) := fun h0 hr =>
    List.mem_range'_1.mpr ⟨Nat.pos_of_ne_zero h0, by omega⟩
  have hrootKeys : keys .fullMesh n 0 = (List.range' 1 (n - 1)).map (.recv, ·)
      ++ (List.range' 1 (n - 1)).map (.send, ·) := rfl
  have hsends : ∀ (i : ℕ) (l : List ℕ),
      tally (Local.received i) ((l.map (Dir.send, ·)).map (token (α := α))) = 0 := by
    intro i l
    rw [List.map_map, tally_map]
    exact tally_zero l
  -- rank 0 has heard from everyone
  have hroot : ∃ l : List ℕ, (l.map (Dir.send, ·)).Sublist (keys .fullMesh n 0) ∧
      (s.node 0).todo.Sublist (rest .fullMesh n after 0 (l.map (.send, ·))) := by
    by_cases hq0 : q = 0
    · subst hq0
      exact ⟨[], List.nil_sublist _, hpast⟩
    · obtain ⟨l₁, l₂, hsplit⟩ := List.append_of_mem (hpeer hq0 hq)
      have hkeys : keys .fullMesh n 0 = ((List.range' 1 (n - 1)).map (.recv, ·)
          ++ l₁.map (.send, ·)) ++ (.send, q) :: l₂.map (.send, ·) := by
        rw [hrootKeys, List.append_assoc]
        congr 1
        rw [hsplit, List.map_append, List.map_cons]
      refine ⟨q :: l₂, ?_, ?_⟩
      · rw [hkeys]
        exact List.sublist_append_right _ _
      · exact todo_of_heard hn hafter h (Nat.zero_lt_of_lt hq) hq hkeys hpast (Nat.zero_le _)
  obtain ⟨l, hl, hroot⟩ := hroot
  by_cases hp0 : p = 0
  · subst hp0
    exact hroot.trans (rest_sublist hl)
  · have hkeys : keys .fullMesh n p = [] ++ (.send, 0) :: [(.recv, 0)] := if_neg hp0
    have hheard := todo_of_heard hn hafter h hp (Nat.zero_lt_of_lt hq) hkeys hroot
      ((hsends p l).trans_le (Nat.zero_le _))
    rwa [hkeys]

end Through

/-! ### Around the ring -/

section Ring

open Barrier TopologyRing

/-- What is left of a barrier when the last token of a rank is to be sent. -/
def Barrier.lastLap (n r : ℕ) : List (Dir × ℕ) :=
  if r = 0 then [(.send, getNextRank n r), (.recv, getPrevRank n r)]
  else [(.send, getNextRank n r)]

/-- What is left when the first token is to be sent. -/
def Barrier.firstLap (n r : ℕ) : List (Dir × ℕ) :=
  (.send, getNextRank n r) :: (.recv, getPrevRank n r) :: lastLap n r

theorem Barrier.exists_keys_last (n r : ℕ) :
    ∃ l₁ l₂, keys .ring n r = l₁ ++ lastLap n r ∧ lastLap n r = (.send, getNextRank n r) :: l₂ := by
  rw [keys, roundKeys, lastLap]
  by_cases hr : r = 0
  · rw [if_pos hr, if_pos hr]
    exact ⟨_, _, rfl, rfl⟩
  · rw [if_neg hr, if_neg hr]
    exact ⟨[_, _, _], _, rfl, rfl⟩

theorem Barrier.exists_keys_first (n r : ℕ) : ∃ l, keys .ring n r = l ++ firstLap n r := by
  rw [keys, roundKeys, firstLap, lastLap]
  by_cases hr : r = 0
  · rw [if_pos hr, if_pos hr]
    exact ⟨[], rfl⟩
  · rw [if_neg hr, if_neg hr]
    exact ⟨[_], rfl⟩

variable {n : ℕ} (hn : 2 ≤ n) {before after : List (Operation α)}
  (hafter : ∀ o ∈ after, o.Valid n) {s : Fifo ℕ Buf α}
  (h : Fifo.Positions (fun r =>
    (TopologyType.ring.sessionTeam n (before ++ .collective .barrier :: after) r).batches) s)
include hn hafter h

theorem Barrier.todo_lastLap {i : ℕ} (hi : i < n) {l : List (Dir × ℕ)}
    (hpast : (s.node (getNextRank n i)).todo.Sublist (rest .ring n after (getNextRank n i) l))
    (hcount : tally (Local.received i) (l.map (token (α := α))) = 0) :
    (s.node i).todo.Sublist (rest .ring n after i (lastLap n i)) := by
  obtain ⟨l₁, l₂, hkeys, hlast⟩ := exists_keys_last n i
  rw [hlast] at hkeys ⊢
  exact todo_of_heard hn hafter h hi (getNextRank_lt (by omega)) hkeys hpast
    (hcount.trans_le (Nat.zero_le _))

theorem Barrier.todo_firstLap {i : ℕ} (hi : i < n) {l : List (Dir × ℕ)}
    (hpast : (s.node (getNextRank n i)).todo.Sublist (rest .ring n after (getNextRank n i) l))
    (hcount : tally (Local.received i) (l.map (token (α := α))) ≤ 1) :
    (s.node i).todo.Sublist (rest .ring n after i (firstLap n i)) := by
  obtain ⟨l₁, hkeys⟩ := exists_keys_first n i
  obtain ⟨-, l₂, -, hlast⟩ := exists_keys_last n i
  refine todo_of_heard hn hafter h hi (getNextRank_lt (by omega)) hkeys hpast
    (hcount.trans ?_)
  rw [hlast, List.map_cons, List.map_cons, tally_cons, tally_cons, sent_token_send, if_pos rfl]
  omega

/-- The ring: down to rank 0 and once more around. -/
theorem Barrier.ring_through {q : ℕ} (hq : q < n)
    (hpast : (s.node q).todo.Sublist (rest .ring n after q [])) {p : ℕ} (hp : p < n) :
    (s.node p).todo.Sublist (rest .ring n after p (keys .ring n p)) := by
  have hnext : ∀ {r}, r + 1 < n → getNextRank n r = r + 1 := fun {r} hr => by
    rw [getNextRank_of_lt (by omega), if_neg hr.ne]
  have hpeer : ∀ i r, r ≠ 0 →
      tally (Local.received i) ((lastLap n r).map (token (α := α))) = 0 := by
    intro i r hr
    rw [lastLap, if_neg hr, List.map_cons, tally_cons, received_token_send]
    rfl
  have hlast : (s.node 0).todo.Sublist (rest .ring n after 0 (lastLap n 0)) := by
    have hdown : ∀ r, r < n → (s.node r).todo.Sublist (rest .ring n after r (lastLap n r)) →
        (s.node 0).todo.Sublist (rest .ring n after 0 (lastLap n 0)) := by
      intro r
      induction r with
      | zero => exact fun _ hr => hr
      | succ r ih =>
          intro hr hpast
          refine ih (Nat.lt_of_succ_lt hr) (todo_lastLap hn hafter h (Nat.lt_of_succ_lt hr) ?_
            (hpeer r (r + 1) r.succ_ne_zero))
          rwa [hnext hr]
    exact hdown q hq (hpast.trans (rest_sublist (List.nil_sublist _)))
  have hfirst : (s.node (n - 1)).todo.Sublist
      (rest .ring n after (n - 1) (firstLap n (n - 1))) := by
    have hwrap : getNextRank n (n - 1) = 0 := by
      rw [getNextRank_of_lt (by omega), if_pos (by omega)]
    refine todo_firstLap hn hafter h (by omega) (l := lastLap n 0) ?_ ?_
    · rwa [hwrap]
    · rw [lastLap, if_pos rfl, List.map_cons, List.map_cons, tally_cons, tally_cons,
        received_token_send, received_token_recv, List.map_nil, tally_nil]
      split_ifs <;> omega
  have hround : (s.node p).todo.Sublist (rest .ring n after p (firstLap n p)) := by
    have hdown : ∀ d, p + d < n →
        (s.node (p + d)).todo.Sublist (rest .ring n after (p + d) (firstLap n (p + d))) →
          (s.node p).todo.Sublist (rest .ring n after p (firstLap n p)) := by
      intro d
      induction d with
      | zero => exact fun _ hd => hd
      | succ d ih =>
          intro hd hpast
          refine ih (by omega) (todo_firstLap hn hafter h (by omega) (l := firstLap n (p + d + 1))
            ?_ ?_)
          · rwa [hnext (r := p + d) hd]
          · rw [firstLap, List.map_cons, List.map_cons, tally_cons, tally_cons,
              received_token_send, received_token_recv, hpeer _ _ (Nat.succ_ne_zero _)]
            split_ifs <;> omega
    have hd : p + (n - 1 - p) = n - 1 := by omega
    exact hdown (n - 1 - p) (by omega) (by rwa [hd])
  obtain ⟨l, hkeys⟩ := exists_keys_first n p
  rw [hkeys]
  exact hround.trans (rest_sublist (List.sublist_append_right l _))

end Ring

/-! ### Phases -/

namespace TopologyType

/-- How many transfers and computations of `ops` are the part of rank `r`. -/
def share (topology : TopologyType) (n : ℕ) (ops : List (Operation α)) (r : ℕ) : ℕ :=
  (Script.project r (ops.flatMap (Operation.script topology n))).length

section Phases

variable {topology : TopologyType} {n : ℕ} (hn : 2 ≤ n) {before after : List (Operation α)}
  (hafter : ∀ o ∈ after, o.Valid n)
include hn hafter

theorem length_flatten_batches {r : ℕ} (hr : r < n) :
    (topology.session n after r).batches.flatten.length = topology.share n after r :=
  ((schedule_operations topology hn hafter).performs r hr).perm.length_eq

omit hn hafter in
theorem todo_init {m : ℕ → RankMem α} {r : ℕ} (hr : r < n) :
    ((Fifo.init (topology.sessionTeam n after) m).node r).todo
      = (topology.session n after r).batches.flatten := by
  have hteam : topology.sessionTeam n after r = topology.session n after r := if_pos hr
  rw [← hteam]
  rfl

theorem length_rest_keys {r : ℕ} (hr : r < n) :
    (Barrier.rest topology n after r (Barrier.keys topology n r)).length
      = topology.share n (.collective .barrier :: after) r := by
  rw [Barrier.rest, List.length_append, length_flatten_batches hn hafter hr, share, share,
    List.flatMap_cons, Script.project_append, List.length_append]
  congr 2
  exact (Barrier.project_barrier hn hr).symm

/-- **A `Barrier` separates what comes before it from what comes after it**, in every
session: when some rank has nothing more to do than what comes after the barrier, no rank
has anything to do of what comes before it. -/
theorem barrier_separates (hbefore : ∀ o ∈ before, o.Valid n)
    {m : ℕ → RankMem α} {s : Fifo ℕ Buf α}
    (hs : Fifo.step.Reaches
      (Fifo.init (topology.sessionTeam n (before ++ .collective .barrier :: after)) m) s)
    {q p : ℕ} (hq : q < n) (hp : p < n)
    (hthrough : (s.node q).todo.length ≤ topology.share n after q) :
    (s.node p).todo.length ≤ topology.share n (.collective .barrier :: after) p := by
  have h := session_positions hn hbefore hafter hs
  have hsuffix : (topology.session n after q).batches
      <:+ (topology.sessionTeam n (before ++ .collective .barrier :: after) q).batches := by
    rw [batches_sessionTeam hq]
    exact (List.suffix_append _ _).trans (List.suffix_append _ _)
  have hpast : (s.node q).todo.Sublist (Barrier.rest topology n after q []) := by
    rcases (h.within q).cut hsuffix with hle | hle
    · rw [← length_flatten_batches hn hafter hq] at hthrough
      exact (hle.eq_of_length_le hthrough).symm ▸ List.Sublist.refl _
    · exact hle
  rw [← length_rest_keys hn hafter hp]
  cases topology with
  | fullMesh => exact (Barrier.mesh_through hn hafter h rfl hq hpast hp).length_le
  | ring => exact (Barrier.ring_through hn hafter h hq hpast hp).length_le

end Phases

end TopologyType

/-- Three ranks of a ring gather around a barrier.  When the first of them is through, the
others are not. -/
theorem TopologyType.barrier_separates_three : ∃ (s : Fifo ℕ Buf ℕ) (q : ℕ),
    let gather : Operation ℕ := .collective (.gather (fun _ => 1) (fun _ => 2) 5 .int32 2)
    Fifo.step.Reaches (Fifo.init (ring.sessionTeam 3 [gather, .collective .barrier, gather])
        fun r _ _ => r) s ∧
      q < 3 ∧ (s.node q).todo.length ≤ ring.share 3 [gather] q ∧
      (∀ p < 3, p ≠ q → ring.share 3 [gather] p < (s.node p).todo.length) ∧
      ∀ p < 3, (s.node p).todo.length ≤ ring.share 3 [.collective .barrier, gather] p := by
  let gather : Operation ℕ := .collective (.gather (fun _ => 1) (fun _ => 2) 5 .int32 2)
  have hgather : ∀ o ∈ [gather], o.Valid 3 :=
    List.forall_mem_singleton.mpr (by decide : 2 < 3)
  have hvalid : ∀ o ∈ [gather, .collective .barrier, gather], o.Valid 3 :=
    valid_around_barrier hgather hgather
  let through (s : Fifo ℕ Buf ℕ) : Prop :=
    ∃ q < 3, (s.node q).todo.length ≤ ring.share 3 [gather] q
  obtain ⟨t, ht, hdone⟩ : ∃ t, Fifo.step.Reaches (Fifo.init
      (ring.sessionTeam 3 [gather, .collective .barrier, gather]) fun r _ _ => r) t ∧
        ∀ r < 3, (t.node r).Finished := exists_completed_session (by decide) hvalid _
  -- in the beginning nobody is through, and in the end everybody is
  have hstart : ¬ through (Fifo.init (ring.sessionTeam 3 [gather, .collective .barrier, gather])
      fun r _ _ => r) := by
    rintro ⟨q, hq, hle⟩
    have hmore : ∀ q < 3, ring.share 3 [gather] q
        < ring.share 3 [gather, .collective .barrier, gather] q := by decide
    rw [todo_init hq, length_flatten_batches (by decide) hvalid hq] at hle
    exact absurd hle (Nat.not_le_of_lt (hmore q hq))
  have hend : through t := by
    obtain ⟨b, hreturned⟩ := hdone 0 (by decide)
    refine ⟨0, by decide, ?_⟩
    rw [Node.todo_of_returned hreturned]
    exact Nat.zero_le _
  obtain ⟨u, a, s, hu, hnot, hstep, q, hq, hthrough⟩ :=
    ht.exists_crossing (J := through) hstart hend
  have hs := hu.tail ⟨a, hstep⟩
  refine ⟨s, q, hs, hq, hthrough, fun p hp hne => ?_, fun p hp =>
    barrier_separates (by decide) hgather hgather hs hq hp hthrough⟩
  -- the step has moved no other rank
  obtain ⟨r, hothers, -⟩ := Fifo.step_cases hstep
  have hqr : q = r := by
    by_contra hqr
    rw [hothers q hqr] at hthrough
    exact hnot ⟨q, hq, hthrough⟩
  rw [hothers p (hqr ▸ hne)]
  exact Nat.lt_of_not_le fun hle => hnot ⟨p, hp, hle⟩

end MiniCcl
