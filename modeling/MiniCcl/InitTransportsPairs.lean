/-
MiniCcl/InitTransportsPairs.lean

`InitTransports` cannot get stuck, ends, and pairs up every link.

There are as many accept threads as peers to accept.  So while a thread has no
connection and all peers have connected, a connection is pending, and once all threads
have returned, all peers have been accepted.  A rank waits for smaller ranks to announce
themselves and for larger ranks to listen.  The smallest rank that has not returned can
therefore move, or one that it connects to can listen.
-/
import MiniCcl.InitTransportsInv
import Mathlib.Algebra.Order.BigOperators.Group.Finset
import Mathlib.Data.List.Perm.Subperm

namespace MiniCcl.InitTransports

namespace Inv

variable {P : Peers} {worldSize r : ℕ} {s t : State} {a : Action} (h : Inv P worldSize s)
include h

/-! ### Counting the threads that accept -/

/-- When every accept thread has a connection, every peer has been accepted. -/
theorem exists_thread (hP : P.Paired worldSize)
    (hall : ∀ i < (P.accept r).length, ∃ connector, (s.acceptThread (r, i)).conn? = some connector)
    {connector : ℕ} (hmem : connector ∈ P.accept r) :
    ∃ i < (P.accept r).length, (s.acceptThread (r, i)).conn? = some connector := by
  have hall' : ∀ i, ∃ c, i < (P.accept r).length → (s.acceptThread (r, i)).conn? = some c := by
    intro i
    by_cases hi : i < (P.accept r).length
    · obtain ⟨c, hc⟩ := hall i hi
      exact ⟨c, fun _ => hc⟩
    · exact ⟨0, fun hlt => absurd hlt hi⟩
  choose conn hconn using hall'
  -- different threads have different connections, and there are as many threads as peers
  have hnodup : ((List.range (P.accept r).length).map conn).Nodup := by
    refine List.Nodup.map_on (fun i hi j hj hij => ?_) List.nodup_range
    have hconni := hconn i (List.mem_range.mp hi)
    have hconnj := hconn j (List.mem_range.mp hj)
    exact h.held.unique r i j (conn i) hconni (hij ▸ hconnj)
  have hsub : (List.range (P.accept r).length).map conn ⊆ P.accept r := by
    intro c hc
    obtain ⟨i, hi, rfl⟩ := List.mem_map.mp hc
    obtain ⟨hconnect, hlt, -⟩ := h.connector_wf hP (hconn i (List.mem_range.mp hi))
    exact hP.accept_of_connect hlt hconnect
  have hperm := (hnodup.subperm hsub).perm_of_length_le (by
    rw [List.length_map, List.length_range])
  obtain ⟨i, hi, rfl⟩ := List.mem_map.mp (hperm.mem_iff.mpr hmem)
  exact ⟨i, List.mem_range.mp hi, hconn i (List.mem_range.mp hi)⟩

/-- When all peers have connected and a thread has no connection, one is pending. -/
theorem exists_pending (hP : P.Paired worldSize) {i : ℕ} (hi : i < (P.accept r).length)
    (hnone : (s.acceptThread (r, i)).conn? = none)
    (hmade : ∀ connector ∈ P.accept r, s.connectThread ⟨connector, r⟩ ≠ .connecting) :
    ∃ connector, connector ∈ s.backlog r := by
  by_contra hempty
  push Not at hempty
  have hall : ∀ c, ∃ j, c ∈ P.accept r → (s.acceptThread (r, j)).conn? = some c := by
    intro c
    by_cases hc : c ∈ P.accept r
    · obtain ⟨j, hj⟩ := ((h.held.made r c).mp (hmade c hc)).resolve_left (hempty c)
      exact ⟨j, fun _ => hj⟩
    · exact ⟨0, fun hmem => absurd hmem hc⟩
  choose thread hthread using hall
  have hnodup : ((P.accept r).map thread).Nodup := by
    refine List.Nodup.map_on (fun c hc c' hc' hcc => ?_) (hP.nodup_accept r)
    have hconn := hthread c hc
    rw [hcc, hthread c' hc'] at hconn
    exact (Option.some.inj hconn).symm
  -- the thread `i` is not one of them
  have hsub : (P.accept r).map thread ⊆ (List.range (P.accept r).length).erase i := by
    intro j hj
    obtain ⟨c, hc, rfl⟩ := List.mem_map.mp hj
    refine (List.mem_erase_of_ne ?_).mpr
      (List.mem_range.mpr (h.held.bound r _ c (hthread c hc)))
    intro hji
    rw [← hji, hthread c hc] at hnone
    cases hnone
  have hle := (hnodup.subperm hsub).length_le
  rw [List.length_map, List.length_erase_of_mem (List.mem_range.mpr hi), List.length_range] at hle
  omega

/-! ### Progress -/

/-- A rank all of whose accept threads have returned has accepted all its peers. -/
theorem exists_returned (hP : P.Paired worldSize) (hjoined : (s.phase r).AcceptJoined)
    {connector : ℕ} (hmem : connector ∈ P.accept r) :
    ∃ i, s.acceptThread (r, i) = .returned connector connector := by
  have hreturned := h.phases.acceptJoined r hjoined
  obtain ⟨i, hi, hconn⟩ := h.exists_thread hP (fun i hi => by
    obtain ⟨v, c, hvc⟩ := hreturned i hi
    exact ⟨c, by rw [hvc]; rfl⟩) hmem
  obtain ⟨v, c, hvc⟩ := hreturned i hi
  have hkey := h.messages.key r i v c (.inr hvc)
  rw [hvc] at hconn
  cases hconn
  subst hkey
  exact ⟨i, hvc⟩

/-- While a connect thread of a rank runs, it or its peer can move. -/
theorem exists_step_of_connect (hP : P.Paired worldSize) (hspawned : s.phase r ≠ .start)
    {peer : ℕ} (hpeer : peer ∈ P.connect r) (hrun : s.connectThread ⟨r, peer⟩ ≠ .returned) :
    ∃ a t, Step P worldSize s a t := by
  have hr := h.phases.lt r hspawned
  have hmem := hP.accept_of_connect hr hpeer
  cases hthread : s.connectThread ⟨r, peer⟩ with
  | connecting =>
      by_cases hstart : s.phase peer = .start
      · exact ⟨_, _, .listen (hP.connect_lt hr hpeer).2 hstart⟩
      · refine ⟨_, _, .connect hpeer hspawned hthread ⟨hstart, fun hreturned => ?_, ?_⟩⟩
        · -- the peer has not accepted this rank
          obtain ⟨i, hi⟩ := h.exists_returned hP (by rw [hreturned]; trivial) hmem
          refine (h.held.made peer r).mpr (.inr ⟨i, ?_⟩) hthread
          rw [hi]
          rfl
        · exact List.ne_nil_of_mem hmem
  | connected => exact ⟨_, _, .insertConnected hthread⟩
  | returned => exact absurd hthread hrun

/-- While an accept thread of a rank runs and all smaller ranks have returned, it can
move. -/
theorem exists_step_of_accept (hP : P.Paired worldSize) (hspawned : s.phase r ≠ .start)
    (hsmaller : ∀ q < r, s.phase q = .returned) {i : ℕ} (hi : i < (P.accept r).length)
    (hrun : ¬ ∃ peerRank connector, s.acceptThread (r, i) = .returned peerRank connector) :
    ∃ a t, Step P worldSize s a t := by
  have hr := h.phases.lt r hspawned
  cases hthread : s.acceptThread (r, i) with
  | waiting =>
      obtain ⟨c, hc⟩ := h.exists_pending hP hi (by rw [hthread]; rfl) fun c hc => by
        have hjoined := h.phases.connectJoined c (by rw [hsmaller c (hP.accept_lt hr hc)]; trivial)
        rw [hjoined r (hP.connect_of_accept hr hc)]
        exact nofun
      exact ⟨_, _, .accept hi hspawned hthread hc⟩
  | accepted c =>
      have hconn : (s.acceptThread (r, i)).conn? = some c := by
        rw [hthread]
        rfl
      obtain ⟨hpeer, -, hlt⟩ := h.connector_wf hP hconn
      -- the connector has announced itself, and no other thread has read that
      have hsent := h.messages.sent c r hpeer (by rw [hsmaller c hlt]; trivial) fun j hread => by
        obtain rfl : j = i := by
          refine h.held.unique r j i c ?_ hconn
          rcases hread with ⟨v, hv⟩ | ⟨v, hv⟩ <;> rw [hv] <;> rfl
        rw [hthread] at hread
        rcases hread with ⟨v, hv⟩ | ⟨v, hv⟩ <;> cases hv
      exact ⟨_, _, .recvRank hthread hsent⟩
  | received v c => exact ⟨_, _, .insertReceived hthread⟩
  | returned v c => exact absurd ⟨v, c, hthread⟩ hrun

/-- **The smallest rank that has not returned can move**, or a peer that it waits for
can. -/
theorem exists_step_of_smaller (hP : P.Paired worldSize) (hr : r < worldSize)
    (hne : s.phase r ≠ .returned) (hsmaller : ∀ q < r, s.phase q = .returned) :
    ∃ a t, Step P worldSize s a t := by
  cases hphase : s.phase r with
  | start => exact ⟨_, _, .listen hr hphase⟩
  | joinConnect =>
      by_cases hjoin : ∀ peer ∈ P.connect r, s.connectThread ⟨r, peer⟩ = .returned
      · exact ⟨_, _, .joinConnect hphase hjoin⟩
      · push Not at hjoin
        obtain ⟨peer, hpeer, hrun⟩ := hjoin
        exact h.exists_step_of_connect hP (by rw [hphase]; exact nofun) hpeer hrun
  | joinAccept =>
      by_cases hjoin : ∀ i < (P.accept r).length,
          ∃ peerRank connector, s.acceptThread (r, i) = .returned peerRank connector
      · exact ⟨_, _, .joinAccept hphase hjoin⟩
      · rw [not_forall] at hjoin
        obtain ⟨i, hjoin⟩ := hjoin
        rw [Classical.not_imp] at hjoin
        exact h.exists_step_of_accept hP (by rw [hphase]; exact nofun) hsmaller hjoin.1 hjoin.2
  | announcing rest =>
      cases rest with
      | nil => exact ⟨_, _, .finish hphase⟩
      | cons peer rest =>
          have hpeer := (h.phases.announcing r _ hphase).subset List.mem_cons_self
          have hconnect := h.phases.connectJoined r (by rw [hphase]; trivial) peer hpeer
          exact ⟨_, _, .sendRank hphase ((h.filed r peer _).mpr (.inl ⟨hconnect, rfl⟩))⟩
  | returned => exact absurd hphase hne

/-- **No deadlock**, by induction along the ranks. -/
theorem exists_step (hP : P.Paired worldSize) (hr : ∃ r < worldSize, s.phase r ≠ .returned) :
    ∃ a t, Step P worldSize s a t := by
  classical
  obtain ⟨hlt, hne⟩ := Nat.find_spec hr
  refine h.exists_step_of_smaller hP hlt hne fun q hq => ?_
  by_contra hq'
  exact Nat.find_min hr hq ⟨hq.trans hlt, hq'⟩

/-! ### The result -/

/-- The two ends of the connection to a peer. -/
theorem transports_of_connect (hP : P.Paired worldSize)
    (hall : ∀ q < worldSize, s.phase q = .returned) (hr : r < worldSize) {peer : ℕ}
    (hpeer : peer ∈ P.connect r) :
    s.transports (r, peer) = some ⟨⟨r, peer⟩, .connector⟩ ∧
      s.transports (peer, r) = some ⟨⟨r, peer⟩, .acceptor⟩ := by
  have hconnect := h.phases.connectJoined r (by rw [hall r hr]; trivial) peer hpeer
  have hlt := (hP.connect_lt hr hpeer).2
  obtain ⟨i, hi⟩ := h.exists_returned hP (by rw [hall peer hlt]; trivial)
    (hP.accept_of_connect hr hpeer)
  exact ⟨(h.filed r peer _).mpr (.inl ⟨hconnect, rfl⟩),
    (h.filed peer r _).mpr (.inr ⟨i, r, hi, rfl⟩)⟩

/-- Only peers have entries. -/
theorem mem_of_transports (hP : P.Paired worldSize) {peer : ℕ} {e : Endpoint}
    (hget : s.transports (r, peer) = some e) : peer ∈ P.connect r ∨ peer ∈ P.accept r := by
  rcases (h.filed r peer e).mp hget with ⟨hconnect, -⟩ | ⟨i, c, hi, -⟩
  · refine .inl (h.held.link r peer ?_)
    rw [hconnect]
    exact nofun
  · have hkey := h.messages.key r i peer c (.inr hi)
    subst hkey
    obtain ⟨hpeer, hlt, -⟩ := h.connector_wf hP (i := i) (by rw [hi]; rfl)
    exact .inr (hP.accept_of_connect hlt hpeer)

end Inv

/-! ### Termination -/

section Termination

open Function

/-- What is left to do for the main thread of a rank. -/
def Phase.remaining (connect : List ℕ) : Phase → ℕ
  | start => connect.length + 4
  | joinConnect => connect.length + 3
  | joinAccept => connect.length + 2
  | announcing rest => rest.length + 1
  | returned => 0

def ConnectThread.remaining : ConnectThread → ℕ
  | connecting => 2
  | connected => 1
  | returned => 0

def AcceptThread.remaining : AcceptThread → ℕ
  | waiting => 3
  | accepted _ => 2
  | received _ _ => 1
  | returned _ _ => 0

def pairsOf (worldSize : ℕ) : Finset (ℕ × ℕ) := Finset.range worldSize ×ˢ Finset.range worldSize

/-- What is left to do for all threads. -/
def State.remaining (P : Peers) (worldSize : ℕ) (s : State) : ℕ :=
  ∑ r ∈ Finset.range worldSize, (s.phase r).remaining (P.connect r) +
    ∑ c ∈ (pairsOf worldSize).image (fun x => Connection.mk x.1 x.2),
      (s.connectThread c).remaining +
    ∑ x ∈ pairsOf worldSize, (s.acceptThread x).remaining

theorem sum_update_lt {κ τ : Type*} [DecidableEq κ] {S : Finset κ} {x : κ} (hx : x ∈ S)
    (f : κ → τ) (w : κ → τ → ℕ) {v : τ} (h : w x v < w x (f x)) :
    ∑ y ∈ S, w y (update f x v y) < ∑ y ∈ S, w y (f y) := by
  refine Finset.sum_lt_sum (fun y _ => ?_) ⟨x, hx, by rwa [update_self]⟩
  by_cases hy : y = x
  · rw [hy, update_self]
    exact h.le
  · rw [update_of_ne hy]

variable {P : Peers} {worldSize r : ℕ} {s t : State} {a : Action}

theorem remaining_lt_of_phase (hr : r < worldSize) {p : Phase}
    (h : p.remaining (P.connect r) < (s.phase r).remaining (P.connect r))
    (hphase : t.phase = update s.phase r p) (hconnect : t.connectThread = s.connectThread)
    (haccept : t.acceptThread = s.acceptThread) :
    t.remaining P worldSize < s.remaining P worldSize := by
  rw [State.remaining, State.remaining, hphase, hconnect, haccept]
  exact Nat.add_lt_add_right (Nat.add_lt_add_right (sum_update_lt (Finset.mem_range.mpr hr) s.phase
    (fun q p => p.remaining (P.connect q)) h) _) _

theorem remaining_lt_of_connect {peer : ℕ} (hr : r < worldSize) (hpeer : peer < worldSize)
    {v : ConnectThread} (h : v.remaining < (s.connectThread ⟨r, peer⟩).remaining)
    (hphase : t.phase = s.phase) (hconnect : t.connectThread = update s.connectThread ⟨r, peer⟩ v)
    (haccept : t.acceptThread = s.acceptThread) :
    t.remaining P worldSize < s.remaining P worldSize := by
  have hmem : (⟨r, peer⟩ : Connection) ∈
      (pairsOf worldSize).image (fun x => Connection.mk x.1 x.2) := by
    refine Finset.mem_image.mpr ⟨(r, peer), ?_, rfl⟩
    exact Finset.mem_product.mpr ⟨Finset.mem_range.mpr hr, Finset.mem_range.mpr hpeer⟩
  rw [State.remaining, State.remaining, hphase, hconnect, haccept]
  exact Nat.add_lt_add_right (Nat.add_lt_add_left (sum_update_lt hmem s.connectThread
    (fun _ v => v.remaining) h) _) _

theorem remaining_lt_of_accept {i : ℕ} (hr : r < worldSize) (hi : i < worldSize)
    {v : AcceptThread} (h : v.remaining < (s.acceptThread (r, i)).remaining)
    (hphase : t.phase = s.phase) (hconnect : t.connectThread = s.connectThread)
    (haccept : t.acceptThread = update s.acceptThread (r, i) v) :
    t.remaining P worldSize < s.remaining P worldSize := by
  have hmem : (r, i) ∈ pairsOf worldSize :=
    Finset.mem_product.mpr ⟨Finset.mem_range.mpr hr, Finset.mem_range.mpr hi⟩
  rw [State.remaining, State.remaining, hphase, hconnect, haccept]
  exact Nat.add_lt_add_left (sum_update_lt hmem s.acceptThread (fun _ v => v.remaining) h) _

/-- A rank has at most `worldSize` accept threads. -/
theorem Peers.Paired.length_accept_le (hP : P.Paired worldSize) (hr : r < worldSize) :
    (P.accept r).length ≤ worldSize := by
  have hsub : P.accept r ⊆ List.range worldSize := fun q hq =>
    List.mem_range.mpr ((hP.accept_lt hr hq).trans hr)
  have hle := ((hP.nodup_accept r).subperm hsub).length_le
  rwa [List.length_range] at hle

/-- Every step leaves less to do. -/
theorem Inv.remaining_lt (hP : P.Paired worldSize) (h : Inv P worldSize s)
    (hstep : Step P worldSize s a t) : t.remaining P worldSize < s.remaining P worldSize := by
  cases hstep with
  | @listen _ r hr hphase =>
      refine remaining_lt_of_phase hr ?_ rfl rfl rfl
      rw [hphase]
      exact Nat.lt_succ_self _
  | @connect _ r peer hpeer hspawned hconnecting hlisten =>
      have hr := h.phases.lt r hspawned
      refine remaining_lt_of_connect hr (hP.connect_lt hr hpeer).2 ?_ rfl rfl rfl
      rw [hconnecting]
      exact Nat.lt_succ_self _
  | @insertConnected _ r peer hconnected =>
      have hne : s.connectThread ⟨r, peer⟩ ≠ .connecting := by
        rw [hconnected]
        exact nofun
      have hr := h.phases.lt r (h.spawned_of_connect hne)
      have hpeer := (hP.connect_lt hr (h.held.link r peer hne)).2
      refine remaining_lt_of_connect hr hpeer ?_ rfl rfl rfl
      rw [hconnected]
      exact Nat.lt_succ_self _
  | @accept _ r i connector hi hspawned hwaiting hmem =>
      have hr := h.phases.lt r hspawned
      refine remaining_lt_of_accept hr (hi.trans_le (hP.length_accept_le hr)) ?_ rfl rfl rfl
      rw [hwaiting]
      exact Nat.lt_succ_self _
  | @recvRank _ r i connector peerRank rest hthread hrecv =>
      have hr := h.phases.lt r (h.spawned_of_accept (by rw [hthread]; exact nofun))
      have hi := h.held.bound r i connector (by rw [hthread]; rfl)
      refine remaining_lt_of_accept hr (hi.trans_le (hP.length_accept_le hr)) ?_ rfl rfl rfl
      rw [hthread]
      exact Nat.lt_succ_self _
  | @insertReceived _ r i connector peerRank hthread =>
      have hr := h.phases.lt r (h.spawned_of_accept (by rw [hthread]; exact nofun))
      have hi := h.held.bound r i connector (by rw [hthread]; rfl)
      refine remaining_lt_of_accept hr (hi.trans_le (hP.length_accept_le hr)) ?_ rfl rfl rfl
      rw [hthread]
      exact Nat.lt_succ_self _
  | @joinConnect _ r hphase hjoin =>
      have hr := h.phases.lt r (by rw [hphase]; exact nofun)
      refine remaining_lt_of_phase hr ?_ rfl rfl rfl
      rw [hphase]
      exact Nat.lt_succ_self _
  | @joinAccept _ r hphase hjoin =>
      have hr := h.phases.lt r (by rw [hphase]; exact nofun)
      refine remaining_lt_of_phase hr ?_ rfl rfl rfl
      rw [hphase]
      exact Nat.lt_succ_self _
  | @sendRank _ r peer rest e hphase hget =>
      have hr := h.phases.lt r (by rw [hphase]; exact nofun)
      refine remaining_lt_of_phase hr ?_ rfl rfl rfl
      rw [hphase]
      exact Nat.lt_succ_self _
  | @finish _ r hphase =>
      have hr := h.phases.lt r (by rw [hphase]; exact nofun)
      refine remaining_lt_of_phase hr ?_ rfl rfl rfl
      rw [hphase]
      exact Nat.zero_lt_succ _

/-- **Every run ends**: its length is bounded by what is left to do at its start. -/
theorem length_run_le (hP : P.Paired worldSize) {l : List Action}
    (h : Lts.Run (Step P worldSize) (fun _ _ => True) State.init l s) :
    l.length ≤ State.init.remaining P worldSize := by
  have hle := h.length_add_le (J := Inv P worldSize) (f := State.remaining P worldSize)
    (fun hinv hstep _ => ⟨hinv.step hP hstep, hinv.remaining_lt hP hstep⟩) inv_init
  exact (Nat.le_add_right _ _).trans hle

/-- All ranks can return. -/
theorem exists_all_returned (hP : P.Paired worldSize) :
    ∃ s, (Step P worldSize).Reaches State.init s ∧ ∀ r < worldSize, s.phase r = .returned := by
  obtain ⟨l, s, hrun, hstuck⟩ := Lts.Run.exists_stuck (T := Step P worldSize)
    (P := fun _ _ => True) (J := Inv P worldSize) (f := State.remaining P worldSize)
    (fun hinv hstep _ => ⟨hinv.step hP hstep, hinv.remaining_lt hP hstep⟩) inv_init
  refine ⟨s, hrun.reaches, fun r hr => ?_⟩
  by_contra hne
  obtain ⟨a, t, hstep⟩ := (inv_of_reaches hP hrun.reaches).exists_step hP ⟨r, hr, hne⟩
  exact hstuck a t hstep trivial

end Termination

/-- **`InitTransports` pairs up every link and cannot deadlock.** -/
theorem pairs_links (topology : TopologyType) {n : ℕ} (hn : 2 ≤ n) {s : State}
    (h : (Step (peers topology n) n).Reaches State.init s) :
    ((∃ r < n, s.phase r ≠ .returned) → ∃ a t, Step (peers topology n) n s a t) ∧
      ((∀ r < n, s.phase r = .returned) → ∀ r < n,
        (∀ peer, (s.transports (r, peer)).isSome ↔ peer ∈ topology.getNeighbors n r) ∧
          ∀ peer ∈ topology.getNeighbors n r, ∃ e,
            s.transports (r, peer) = some e ∧ s.transports (peer, r) = some e.other) := by
  have hP := paired_peers topology hn
  have hinv := inv_of_reaches hP h
  refine ⟨hinv.exists_step hP, fun hall r hr => ?_⟩
  have hends : ∀ peer ∈ topology.getNeighbors n r, ∃ e,
      s.transports (r, peer) = some e ∧ s.transports (peer, r) = some e.other := by
    intro peer hpeer
    obtain ⟨hlt, hne⟩ := TopologyType.getNeighbors_wf hn hr hpeer
    rcases Nat.lt_or_gt_of_ne hne with hsmaller | hlarger
    · have hmem := mem_peers_connect.mpr
        ⟨TopologyType.mem_getNeighbors_of_mem hr hpeer, hsmaller⟩
      obtain ⟨hconnector, hacceptor⟩ := hinv.transports_of_connect hP hall hlt hmem
      exact ⟨_, hacceptor, hconnector⟩
    · have hmem := mem_peers_connect.mpr ⟨hpeer, hlarger⟩
      obtain ⟨hconnector, hacceptor⟩ := hinv.transports_of_connect hP hall hr hmem
      exact ⟨_, hconnector, hacceptor⟩
  refine ⟨fun peer => ⟨fun hsome => ?_, fun hpeer => ?_⟩, hends⟩
  · obtain ⟨e, he⟩ := Option.isSome_iff_exists.mp hsome
    rcases hinv.mem_of_transports hP he with hmem | hmem
    · exact (List.mem_filter.mp hmem).1
    · exact (List.mem_filter.mp hmem).1
  · obtain ⟨e, he, -⟩ := hends peer hpeer
    rw [he]
    rfl

/-- A ring of three ranks: rank 0 connects to both others. -/
theorem pairs_links_three :
    ∃ s, (Step (peers .ring 3) 3).Reaches State.init s ∧ (∀ r < 3, s.phase r = .returned) ∧
      (∃ a t, Step (peers .ring 3) 3 State.init a t) ∧
      ∃ e, s.transports (2, 0) = some e ∧ s.transports (0, 2) = some e.other := by
  obtain ⟨s, hreaches, hreturned⟩ := exists_all_returned (paired_peers .ring (n := 3) (by decide))
  refine ⟨s, hreaches, hreturned, ?_, ?_⟩
  · exact (pairs_links .ring (by decide) .refl).1 ⟨0, by decide, nofun⟩
  · exact ((pairs_links .ring (by decide) hreaches).2 hreturned 2 (by decide)).2 0 (by decide)

end MiniCcl.InitTransports
