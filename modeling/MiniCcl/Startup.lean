/-
MiniCcl/Startup.lean

Every run from `Communicator::Init` on ends with the results of the session.

`view` is the network that a state amounts to: a rank that has not begun stands at the
start of its session, and the channel from `i` to `j` is what `i` has sent at its end of
their connection.  The steps of the lower layers and the beginning of a rank do not show
there, and the others are steps of the network (`Inv.step`).

Conversely, what a layer waits for happens: the bootstrap ends, then all ranks have their
tables and connect, then all have their transports and begin, and then no step of the
network waits for anything but the network (`Inv.exists_step`).
-/
import MiniCcl.CommunicatorInit

namespace MiniCcl

open Function

/-! ### The ends of connections -/

namespace InitTransports

/-- The end that rank `i` has of its connection to rank `j`. -/
def endOf (i j : ℕ) : Endpoint :=
  if i < j then ⟨⟨i, j⟩, .connector⟩ else ⟨⟨j, i⟩, .acceptor⟩

theorem endOf_of_lt {i j : ℕ} (h : i < j) : endOf i j = ⟨⟨i, j⟩, .connector⟩ := if_pos h

theorem endOf_of_le {i j : ℕ} (h : j ≤ i) : endOf i j = ⟨⟨j, i⟩, .acceptor⟩ :=
  if_neg (Nat.not_lt.mpr h)

theorem other_endOf {i j : ℕ} (h : i ≠ j) : (endOf i j).other = endOf j i := by
  rcases Nat.lt_or_gt_of_ne h with hlt | hgt
  · rw [endOf_of_lt hlt, endOf_of_le hlt.le]
    rfl
  · rw [endOf_of_le hgt.le, endOf_of_lt hgt]
    rfl

theorem endOf_inj {i j i' j' : ℕ} : endOf i' j' = endOf i j ↔ i' = i ∧ j' = j := by
  constructor
  · intro h
    rcases Nat.lt_or_ge i j with hlt | hge <;> rcases Nat.lt_or_ge i' j' with hlt' | hge'
    · rw [endOf_of_lt hlt, endOf_of_lt hlt'] at h
      cases h
      exact ⟨rfl, rfl⟩
    · rw [endOf_of_lt hlt, endOf_of_le hge'] at h
      cases h
    · rw [endOf_of_le hge, endOf_of_lt hlt'] at h
      cases h
    · rw [endOf_of_le hge, endOf_of_le hge'] at h
      cases h
      exact ⟨rfl, rfl⟩
  · rintro ⟨rfl, rfl⟩
    rfl

variable {P : Peers} {worldSize r p : ℕ} {s : State}

/-- An entry of the map is the own end of the connection to the peer. -/
theorem Inv.eq_endOf (hP : P.Paired worldSize) (h : Inv P worldSize s) {e : Endpoint}
    (hget : s.transports (r, p) = some e) : e = endOf r p := by
  rcases (h.filed r p e).mp hget with ⟨hconnect, rfl⟩ | ⟨i, c, hi, rfl⟩
  · have hne : s.connectThread ⟨r, p⟩ ≠ .connecting := by
      rw [hconnect]
      exact nofun
    have hr := h.phases.lt r (h.spawned_of_connect hne)
    exact (endOf_of_lt (hP.connect_lt hr (h.held.link r p hne)).1).symm
  · obtain rfl := h.messages.key r i p c (.inr hi)
    have hconn : (s.acceptThread (r, i)).conn? = some p := by
      rw [hi]
      rfl
    have hlt := (h.connector_wf hP hconn).2.2
    exact (endOf_of_le hlt.le).symm

/-- Whoever accepts a connection does not send its rank on it. -/
theorem stream_acceptor (hP : P.Paired worldSize) (h : (Step P worldSize).Reaches State.init s)
    (c : Connection) : s.stream ⟨c, .acceptor⟩ = [] := by
  induction h with
  | refl => rfl
  | @tail s t hreach hstep ih =>
      obtain ⟨a, hstep⟩ := hstep
      have hinv := inv_of_reaches hP hreach
      cases hstep with
      | recvRank hthread hrecv =>
          show update s.stream _ _ _ = _
          rw [update_of_ne (by rintro ⟨⟩)]
          exact ih
      | @sendRank _ r peer rest e hphase hget =>
          have hrest := hinv.phases.announcing r _ hphase
          have hr := hinv.phases.lt r (by rw [hphase]; exact nofun)
          have hlt := (hP.connect_lt hr (hrest.subset List.mem_cons_self)).1
          obtain rfl := hinv.eq_endOf hP hget
          show update s.stream (endOf r peer) _ _ = _
          rw [endOf_of_lt hlt, update_of_ne (by rintro ⟨⟩)]
          exact ih
      | _ => exact ih

variable {topology : TopologyType} {n : ℕ}

/-- **A rank that has returned has a transport to each neighbour**, and it has received the
rank number on those that it has accepted. -/
theorem transports_of_returned (hn : 2 ≤ n)
    (h : (Step (peers topology n) n).Reaches State.init s) (hr : r < n)
    (hreturned : s.phase r = .returned) (hp : p ∈ topology.getNeighbors n r) :
    s.transports (r, p) = some (endOf r p) ∧ s.stream (endOf p r) = [] := by
  have hP := paired_peers topology hn
  have hinv := inv_of_reaches hP h
  obtain ⟨-, hne⟩ := TopologyType.getNeighbors_wf hn hr hp
  rcases Nat.lt_or_gt_of_ne hne with hsmaller | hlarger
  · have hmem := (mem_peers_accept hn hr).mpr ⟨hp, hsmaller⟩
    obtain ⟨i, hi⟩ := hinv.exists_returned hP (by rw [hreturned]; trivial) hmem
    rw [endOf_of_le hsmaller.le, endOf_of_lt hsmaller]
    exact ⟨(hinv.filed r p _).mpr (.inr ⟨i, p, hi, rfl⟩),
      hinv.messages.read p r (hP.connect_of_accept hr hmem) i (.inr ⟨p, hi⟩)⟩
  · have hmem := mem_peers_connect.mpr ⟨hp, hlarger⟩
    have hjoined := hinv.phases.connectJoined r (by rw [hreturned]; trivial) p hmem
    rw [endOf_of_lt hlarger, endOf_of_le hlarger.le]
    exact ⟨(hinv.filed r p _).mpr (.inl ⟨hjoined, rfl⟩), stream_acceptor hP h _⟩

/-- The keys of the map of a rank that has returned are its neighbours. -/
theorem isSome_transports (hn : 2 ≤ n) (h : (Step (peers topology n) n).Reaches State.init s)
    (hr : r < n) (hreturned : s.phase r = .returned) :
    (s.transports (r, p)).isSome ↔ p ∈ topology.getNeighbors n r := by
  constructor
  · intro hsome
    obtain ⟨e, he⟩ := Option.isSome_iff_exists.mp hsome
    rcases (inv_of_reaches (paired_peers topology hn) h).mem_of_transports
      (paired_peers topology hn) he with hmem | hmem
    · exact (List.mem_filter.mp hmem).1
    · exact (List.mem_filter.mp hmem).1
  · intro hp
    rw [(transports_of_returned hn h hr hreturned hp).1]
    rfl

/-- Only ranks take steps. -/
theorem Inv.rank_lt (h : Inv P worldSize s) {a : Action} {t : State}
    (hstep : Step P worldSize s a t) : a.rank < worldSize := by
  have hlt {q : ℕ} {x : Phase} (hphase : s.phase q = x) (hx : x ≠ .start) : q < worldSize :=
    h.phases.lt q (hphase ▸ hx)
  cases hstep with
  | listen hr hphase => exact hr
  | connect hpeer hspawned hconnecting hlisten => exact h.phases.lt _ hspawned
  | @insertConnected _ q peer hconnected =>
      have hne : s.connectThread ⟨q, peer⟩ ≠ .connecting := by
        rw [hconnected]
        exact nofun
      exact h.phases.lt q (h.spawned_of_connect hne)
  | accept hi hspawned hwaiting hmem => exact h.phases.lt _ hspawned
  | @recvRank _ q i connector peerRank rest hthread hrecv =>
      refine h.phases.lt q (h.spawned_of_accept (i := i) ?_)
      rw [hthread]
      exact nofun
  | @insertReceived _ q i connector peerRank hthread =>
      refine h.phases.lt q (h.spawned_of_accept (i := i) ?_)
      rw [hthread]
      exact nofun
  | joinConnect hphase hjoin => exact hlt hphase nofun
  | joinAccept hphase hjoin => exact hlt hphase nofun
  | sendRank hphase hget => exact hlt hphase nofun
  | finish hphase => exact hlt hphase nofun

/-- A rank that has returned stays so. -/
theorem phase_of_step {a : Action} {t : State} (hstep : Step P worldSize s a t)
    (h : s.phase r = .returned) : t.phase r = .returned := by
  have hother {q : ℕ} {x y : Phase} (hphase : s.phase q = x) (hx : x ≠ .returned) :
      update s.phase q y r = .returned := by
    have hne : r ≠ q := by
      rintro rfl
      exact hx (hphase.symm.trans h)
    rw [update_of_ne hne, h]
  cases hstep with
  | listen hr hphase => exact hother hphase nofun
  | joinConnect hphase hjoin => exact hother hphase nofun
  | joinAccept hphase hjoin => exact hother hphase nofun
  | sendRank hphase hget => exact hother hphase nofun
  | finish hphase => exact hother hphase nofun
  | _ => exact h

end InitTransports

/-! ### The network of a state -/

namespace CommunicatorInit

open InitTransports (Endpoint endOf endOf_inj other_endOf)

variable {α : Type*} {C : Config α} {s t : State α} {a : Action}

/-- A rank that has not begun stands at the start of its session. -/
def view (C : Config α) (s : State α) : Fifo ℕ Buf α where
  node r := if s.entered r then s.node r
    else ⟨[], C.topology.sessionTeam C.worldSize C.ops r, C.mem r⟩
  chan i j := s.data (endOf i j)

/-- What holds in every state of a run. -/
structure Inv (C : Config α) (s : State α) : Prop where
  boot : (Bootstrap.Step C.worldSize C.info).Reaches .init s.boot
  links : (InitTransports.Step C.peers C.worldSize).Reaches .init s.links
  entered : ∀ r, s.entered r = true → r < C.worldSize ∧ s.links.phase r = .returned
  idle : ∀ r, s.entered r = false → s.node r = ⟨[], .ret false, C.mem r⟩
  net : Fifo.step.Reaches (Fifo.init (C.topology.sessionTeam C.worldSize C.ops) C.mem) (view C s)

theorem inv_init : Inv C (State.init C) where
  boot := .refl
  links := .refl
  entered _ h := nomatch h
  idle _ _ := rfl
  net := .refl

/-- A rank that has not begun takes no step. -/
theorem Inv.entered_of_local? (h : Inv C s) {r : ℕ} {x : Node ℕ Buf α}
    (hlocal : (s.node r).local? = some x) : s.entered r = true := by
  by_contra hnot
  rw [h.idle r (Bool.eq_false_of_not_eq_true hnot)] at hlocal
  cases hlocal

theorem Inv.entered_of_find (h : Inv C s) {r : ℕ} {k : Dir × ℕ} {op : Xfer ℕ Buf}
    (hop : (s.node r).find k = some op) : s.entered r = true := by
  by_contra hnot
  rw [h.idle r (Bool.eq_false_of_not_eq_true hnot)] at hop
  cases hop

theorem Inv.mem_view (h : Inv C s) (r : ℕ) : ((view C s).node r).mem = (s.node r).mem := by
  show (if s.entered r then s.node r else _).mem = _
  by_cases hr : s.entered r = true
  · rw [if_pos hr]
  · rw [if_neg hr, h.idle r (Bool.eq_false_of_not_eq_true hr)]

theorem view_of_entered {r : ℕ} (h : s.entered r = true) : (view C s).node r = s.node r :=
  if_pos h

/-- A rank that has begun goes on. -/
theorem node_view_update {r : ℕ} (h : s.entered r = true) (x : Node ℕ Buf α)
    (data : Endpoint → List α) :
    (view C { s with node := update s.node r x, data := data }).node
      = update (view C s).node r x := by
  funext q
  by_cases hq : q = r
  · subst hq
    rw [update_self]
    exact (if_pos h).trans (update_self ..)
  · rw [update_of_ne hq]
    show (if s.entered q then update s.node r x q else _) = if s.entered q then _ else _
    rw [update_of_ne hq]

theorem chan_view_update {i j : ℕ} (node : ℕ → Node ℕ Buf α) (cells : List α) :
    (view C { s with node := node, data := update s.data (endOf i j) cells }).chan
      = fun i' j' => if i' = i ∧ j' = j then cells else (view C s).chan i' j' := by
  funext i' j'
  by_cases h : i' = i ∧ j' = j
  · rw [if_pos h]
    obtain ⟨rfl, rfl⟩ := h
    exact update_self ..
  · rw [if_neg h]
    exact update_of_ne (fun heq => h (endOf_inj.mp heq)) ..

theorem view_update {i j r : ℕ} (h : s.entered r = true) (x : Node ℕ Buf α) (cells : List α) :
    view C { s with node := update s.node r x, data := update s.data (endOf i j) cells }
      = ⟨update (view C s).node r x,
          fun i' j' => if i' = i ∧ j' = j then cells else (view C s).chan i' j'⟩ :=
  congrArg₂ Fifo.mk (node_view_update h x _) (chan_view_update (update s.node r x) cells)

/-- The ranks that have not begun stand still when another one goes on. -/
theorem Inv.idle_update (h : Inv C s) {r : ℕ} (hr : s.entered r = true) (x : Node ℕ Buf α) :
    ∀ q, s.entered q = false → update s.node r x q = ⟨[], .ret false, C.mem q⟩ := by
  intro q hq
  have hqr : q ≠ r := by
    rintro rfl
    exact absurd (hr.symm.trans hq) (by simp)
  rw [update_of_ne hqr]
  exact h.idle q hq

/-- When a rank begins, nothing changes in the network. -/
theorem Inv.view_enter (hC : C.Valid) (h : Inv C s) {r : ℕ} (hr : r < C.worldSize)
    (hreturned : s.links.phase r = .returned) (hnew : s.entered r = false) :
    view C { s with
      entered := update s.entered r true
      node := update s.node r
        ⟨[], C.topology.sessionWith C.worldSize r (s.communicator C r) C.ops, (s.node r).mem⟩ }
      = view C s := by
  have hneighbors : ∀ p, p ∈ (s.communicator C r).transports
      ↔ p ∈ C.topology.getNeighbors C.worldSize r := by
    intro p
    refine List.mem_filter.trans ?_
    rw [InitTransports.isSome_transports hC.two_le h.links hr hreturned, List.mem_range]
    exact and_iff_right_of_imp fun hp =>
      (TopologyType.getNeighbors_wf hC.two_le hr hp).1
  have hsession : C.topology.sessionWith C.worldSize r (s.communicator C r) C.ops
      = C.topology.sessionTeam C.worldSize C.ops r := by
    rw [TopologyType.sessionWith_eq C.topology hneighbors]
    exact (if_pos hr).symm
  have hnode : (view C { s with
      entered := update s.entered r true
      node := update s.node r
        ⟨[], C.topology.sessionWith C.worldSize r (s.communicator C r) C.ops, (s.node r).mem⟩
      }).node = (view C s).node := by
    funext q
    show (if update s.entered r true q then update s.node r _ q else _)
      = if s.entered q then s.node q else _
    by_cases hq : q = r
    · subst hq
      rw [update_self, update_self, if_pos rfl, if_neg (by simp [hnew]), hsession, h.idle q hnew]
    · rw [update_of_ne hq, update_of_ne hq]
  exact congrArg (fun node => Fifo.mk node _) hnode

/-- What a step does in the layers. -/
inductive Effect (C : Config α) (s t : State α) : Prop
  | boot {a : Bootstrap.Action} (h : Bootstrap.Step C.worldSize C.info s.boot a t.boot)
      (hlinks : t.links = s.links) (hentered : t.entered = s.entered)
      (hview : view C t = view C s)
  | links {a : InitTransports.Action}
      (h : InitTransports.Step C.peers C.worldSize s.links a t.links) (hboot : t.boot = s.boot)
      (hentered : t.entered = s.entered) (hview : view C t = view C s)
  | enter {r : ℕ} (hr : r < C.worldSize) (hreturned : s.links.phase r = .returned)
      (hnew : s.entered r = false) (hboot : t.boot = s.boot) (hlinks : t.links = s.links)
      (hentered : t.entered = update s.entered r true) (hview : view C t = view C s)
  | net {b : Fifo.Label ℕ} (h : Fifo.step (view C s) b (view C t)) (hboot : t.boot = s.boot)
      (hlinks : t.links = s.links) (hentered : t.entered = s.entered)

/-- **A step is a step of its layer**, and whoever has not begun stands still. -/
theorem Inv.effect (hC : C.Valid) (h : Inv C s) (hstep : Step C s a t) :
    Effect C s t ∧ ∀ q, t.entered q = false → t.node q = ⟨[], .ret false, C.mem q⟩ := by
  have hpaired := InitTransports.paired_peers C.topology hC.two_le
  have hlinks := InitTransports.inv_of_reaches hpaired h.links
  cases hstep with
  | boot hb => exact ⟨.boot hb rfl rfl rfl, h.idle⟩
  | links hl hboot hdial => exact ⟨.links hl rfl rfl rfl, h.idle⟩
  | @enter _ r hr hreturned hnew =>
      refine ⟨.enter hr hreturned hnew rfl rfl rfl (h.view_enter hC hr hreturned hnew), ?_⟩
      intro q hq
      have hqr : q ≠ r := by
        rintro rfl
        exact absurd hq (by simp)
      show update s.node r _ q = _
      rw [update_of_ne hqr]
      exact h.idle q ((update_of_ne hqr true s.entered) ▸ hq)
  | @act _ r x hlocal =>
      have hr := h.entered_of_local? hlocal
      have hview : view C { s with node := update s.node r x }
          = ⟨update (view C s).node r x, (view C s).chan⟩ :=
        congrArg (fun node => Fifo.mk node _) (node_view_update hr x s.data)
      refine ⟨.net (b := .act r) ?_ rfl rfl rfl, h.idle_update hr x⟩
      rw [hview]
      exact Fifo.step_act ((view_of_entered hr).symm ▸ hlocal)
  | @send _ i j op e hop hget =>
      have hi := h.entered_of_find hop
      have hnode : (view C s).node i = s.node i := view_of_entered hi
      obtain rfl := hlinks.eq_endOf hpaired hget
      refine ⟨.net (b := .push i j) ?_ rfl rfl rfl, h.idle_update hi _⟩
      have hpush := Fifo.step_push (s := view C s) (hnode.symm ▸ hop)
      rw [hnode] at hpush
      rw [view_update hi]
      exact hpush
  | @recv _ i j op e hop hget hfirst hlen =>
      have hj := h.entered_of_find hop
      have hnode : (view C s).node j = s.node j := view_of_entered hj
      obtain rfl := hlinks.eq_endOf hpaired hget
      have hlink := (InitTransports.isSome_transports hC.two_le h.links (h.entered j hj).1
        (h.entered j hj).2).mp (by rw [hget]; rfl)
      have hne : j ≠ i :=
        (TopologyType.getNeighbors_wf hC.two_le (h.entered j hj).1 hlink).2.symm
      rw [other_endOf hne] at hlen ⊢
      refine ⟨.net (b := .pull i j) ?_ rfl rfl rfl, h.idle_update hj _⟩
      have hpull := Fifo.step_pull (s := view C s) (hnode.symm ▸ hop) hlen
      rw [hnode] at hpull
      rw [view_update hj]
      exact hpull

/-- **One step keeps the invariant.** -/
theorem Inv.step (hC : C.Valid) (h : Inv C s) (hstep : Step C s a t) : Inv C t := by
  obtain ⟨heffect, hidle⟩ := h.effect hC hstep
  cases heffect with
  | boot hb hlinks hentered hview =>
      exact ⟨h.boot.tail ⟨_, hb⟩, hlinks ▸ h.links, hlinks ▸ hentered ▸ h.entered, hidle,
        hview ▸ h.net⟩
  | links hl hboot hentered hview =>
      refine ⟨hboot ▸ h.boot, h.links.tail ⟨_, hl⟩, fun r hr => ?_, hidle, hview ▸ h.net⟩
      have hbefore := h.entered r (hentered ▸ hr)
      exact ⟨hbefore.1, InitTransports.phase_of_step hl hbefore.2⟩
  | @enter r hr hreturned hnew hboot hlinks hentered hview =>
      refine ⟨hboot ▸ h.boot, hlinks ▸ h.links, fun q hq => ?_, hidle, hview ▸ h.net⟩
      rw [hlinks]
      by_cases hqr : q = r
      · rw [hqr]
        exact ⟨hr, hreturned⟩
      · rw [hentered, update_of_ne hqr] at hq
        exact h.entered q hq
  | net hb hboot hlinks hentered =>
      exact ⟨hboot ▸ h.boot, hlinks ▸ h.links, hlinks ▸ hentered ▸ h.entered, hidle,
        h.net.tail ⟨_, hb⟩⟩

theorem inv_of_reaches (hC : C.Valid) (h : (Step C).Reaches (State.init C) s) : Inv C s := by
  induction h with
  | refl => exact inv_init
  | tail _ hstep ih =>
      obtain ⟨a, hstep⟩ := hstep
      exact ih.step hC hstep

/-! ### Progress -/

theorem Config.Valid.sendable (hC : C.Valid) : Bootstrap.Sendable C.worldSize C.info :=
  Bootstrap.sendable_nodeInfo hC.ip hC.frame

/-- All ranks have their tables. -/
def Booted (C : Config α) (s : State α) : Prop :=
  ∀ r < C.worldSize, s.boot.returned r = some (Bootstrap.table C.worldSize C.info)

theorem entry_of_booted (hbooted : Booted C s) {r q : ℕ} (hr : r < C.worldSize)
    (hq : q < C.worldSize) : s.entry r q = some (C.info q) := by
  rw [State.entry, hbooted r hr]
  exact Bootstrap.getElem?_table hq C.info

theorem address_of_booted (hbooted : Booted C s) {q : ℕ} (hq : q < C.worldSize) :
    s.address C q = some (C.ip q, C.dataPort q) := by
  rw [State.address, entry_of_booted hbooted hq hq]
  rfl

/-- **The table leads to the peer that is meant.** -/
theorem Inv.dials (hC : C.Valid) (h : Inv C s) (hbooted : Booted C s) {r peer : ℕ}
    (hr : r < C.worldSize) (hpeer : peer < C.worldSize) : s.Dials C r peer := by
  refine ⟨C.info peer, entry_of_booted hbooted hr hpeer, address_of_booted hbooted hpeer, ?_⟩
  intro q hne hlisten haddr
  have hq := (InitTransports.inv_of_reaches (InitTransports.paired_peers C.topology hC.two_le)
    h.links).phases.lt q hlisten.1
  rw [address_of_booted hbooted hq] at haddr
  have hpair := Option.some.inj haddr
  exact hne (hC.distinct q hq peer hpeer (congrArg Prod.fst hpair) (congrArg Prod.snd hpair))

/-- All ranks make their calls, or have returned from them. -/
def Completed (C : Config α) (s : State α) : Prop :=
  ∀ r < C.worldSize, s.entered r = true ∧ (s.node r).Finished

/-- Whoever is not a rank has nothing to do. -/
theorem Inv.finished_outside (h : Inv C s) {r : ℕ} (hr : ¬ r < C.worldSize) :
    ((view C s).node r).Finished := by
  have hnew : ¬ s.entered r = true := fun hentered => hr (h.entered r hentered).1
  refine ⟨true, ?_⟩
  show Node.Returned (if s.entered r then s.node r else _) true
  rw [if_neg hnew]
  exact ⟨rfl, if_neg hr⟩

/-- A step of the network is one of the system, once all ranks have their transports. -/
theorem Inv.exists_step_of_net (hC : C.Valid) (h : Inv C s)
    (hall : ∀ r < C.worldSize, s.entered r = true) {b : Fifo.Label ℕ} {u : Fifo ℕ Buf α}
    (hstep : Fifo.step (view C s) b u) : ∃ a t, Step C s a t := by
  have hlinked {r : ℕ} {k : Dir × ℕ} {op : Xfer ℕ Buf}
      (hop : ((view C s).node r).find k = some op) :
      r < C.worldSize ∧ k.2 ∈ C.topology.getNeighbors C.worldSize r :=
    exists_link_of_find hC.two_le hC.ops h.net hop
  obtain ⟨d, hd, hplay, -⟩ := hstep
  cases b with
  | act r =>
      have hlocal : ((view C s).node r).local? = some (u.node r) := by
        simpa [Fifo.Label.role, Node.play] using hplay r
      have hr : r < C.worldSize := by
        by_contra hr
        exact absurd hlocal (by simp [(h.finished_outside hr).local?_eq_none])
      rw [view_of_entered (hall r hr)] at hlocal
      exact ⟨_, _, .act hlocal⟩
  | push i j =>
      obtain ⟨op, hop, -⟩ := Option.map_eq_some_iff.mp hd
      obtain ⟨hi, hj⟩ := hlinked hop
      rw [view_of_entered (hall i hi)] at hop
      exact ⟨_, _, .send hop (InitTransports.transports_of_returned hC.two_le h.links hi
        (h.entered i (hall i hi)).2 hj).1⟩
  | pull i j =>
      obtain ⟨op, hop, hlen, -⟩ := hd
      obtain ⟨hj, hi⟩ := hlinked hop
      rw [view_of_entered (hall j hj)] at hop
      obtain ⟨hget, hfirst⟩ := InitTransports.transports_of_returned hC.two_le h.links hj
        (h.entered j (hall j hj)).2 hi
      have hne : j ≠ i := (TopologyType.getNeighbors_wf hC.two_le hj hi).2.symm
      exact ⟨_, _, .recv hop hget (by rw [other_endOf hne]; exact hfirst)
        (by rw [other_endOf hne]; exact hlen)⟩

/-- **No deadlock**: until all ranks have returned from their calls, one of the layers can
move. -/
theorem Inv.exists_step (hC : C.Valid) (h : Inv C s) (hnot : ¬ Completed C s) :
    ∃ a t, Step C s a t := by
  have hn : 1 ≤ C.worldSize := Nat.one_le_of_lt hC.two_le
  have hpaired := InitTransports.paired_peers C.topology hC.two_le
  by_cases hbooted : Booted C s
  swap
  · -- the bootstrap
    have hinv := Bootstrap.inv_of_reaches hn hC.sendable h.boot
    by_contra hstuck
    refine hbooted fun r hr => hinv.returned_of_terminal hC.sendable (fun a b hb => ?_) hr
    exact hstuck ⟨_, _, .boot hb⟩
  have hlinks := InitTransports.inv_of_reaches hpaired h.links
  by_cases hphase : ∀ r < C.worldSize, s.links.phase r = .returned
  swap
  · -- the connections
    push Not at hphase
    obtain ⟨a, l, hl⟩ := hlinks.exists_step hpaired hphase
    refine ⟨_, _, .links hl ?_ ?_⟩
    · rw [hbooted a.rank (hlinks.rank_lt hl)]
      rfl
    · rintro r peer rfl
      cases hl with
      | connect hpeer hspawned hconnecting hlisten =>
          have hr := hlinks.phases.lt r hspawned
          exact h.dials hC hbooted hr (hpaired.connect_lt hr hpeer).2
  by_cases hall : ∀ r < C.worldSize, s.entered r = true
  swap
  · push Not at hall
    obtain ⟨r, hr, hnew⟩ := hall
    exact ⟨_, _, .enter hr (hphase r hr) (Bool.eq_false_of_not_eq_true hnew)⟩
  -- the session
  have hschedule := C.topology.schedule_operations hC.two_le hC.ops
  obtain ⟨ls, f, hrun, hret, -⟩ := hschedule.exists_fifo_run C.mem
  have hne : view C s ≠ ⟨f, fun _ _ => []⟩ := by
    intro heq
    refine hnot fun r hr => ⟨hall r hr, true, ?_⟩
    have hnode : (view C s).node r = f r := congrArg (fun v => v.node r) heq
    rw [view_of_entered (hall r hr)] at hnode
    rw [hnode]
    exact hret r
  obtain ⟨b, u, hstep⟩ := Fifo.commuting.progress (raceFree_start hschedule.raceFree_team C.mem)
    hrun (Fifo.terminal_of_finished fun r => ⟨true, hret r⟩) h.net hne
  exact h.exists_step_of_net hC hall hstep

/-! ### A bound -/

/-- What is left to do in the layers. -/
def remaining (C : Config α) (s : State α) : ℕ :=
  s.boot.remaining C.worldSize + s.links.remaining C.peers C.worldSize +
    (∑ r ∈ Finset.range C.worldSize, if s.entered r then 0 else 1) +
    (view C s).remaining (Finset.range C.worldSize)

/-- **Every step leaves less to do.** -/
theorem Inv.remaining_lt (hC : C.Valid) (h : Inv C s) (hstep : Step C s a t) :
    remaining C t < remaining C s := by
  have hn : 1 ≤ C.worldSize := Nat.one_le_of_lt hC.two_le
  have hpaired := InitTransports.paired_peers C.topology hC.two_le
  rw [remaining, remaining]
  cases (h.effect hC hstep).1 with
  | boot hb hlinks hentered hview =>
      have hlt := (Bootstrap.inv_of_reaches hn hC.sendable h.boot).remaining_lt hn hC.sendable hb
      rw [hlinks, hentered, hview]
      omega
  | links hl hboot hentered hview =>
      have hlt := (InitTransports.inv_of_reaches hpaired h.links).remaining_lt hpaired hl
      rw [hboot, hentered, hview]
      exact Nat.add_lt_add_right (Nat.add_lt_add_right (Nat.add_lt_add_left hlt _) _) _
  | @enter r hr hreturned hnew hboot hlinks hentered hview =>
      have hlt := InitTransports.sum_update_lt (Finset.mem_range.mpr hr) s.entered
        (fun _ b => if b then 0 else 1) (v := true) (by simp [hnew])
      rw [hboot, hlinks, hentered, hview]
      exact Nat.add_lt_add_right (Nat.add_lt_add_left hlt _) _
  | net hb hboot hlinks hentered =>
      have hlt := Fifo.remaining_lt hb (S := Finset.range C.worldSize) fun r hr =>
        h.finished_outside fun hr' => hr (Finset.mem_range.mpr hr')
      rw [hboot, hlinks, hentered]
      omega

/-! ### The results -/

section Results

variable (hC : C.Valid)
include hC

theorem exists_completed (h : (Step C).Reaches (State.init C) s) :
    ∃ l t, Lts.Run (Step C) (fun _ _ => True) s l t ∧ Completed C t := by
  obtain ⟨l, t, hrun, hstuck⟩ := Lts.Run.exists_stuck (T := Step C)
    (P := fun _ _ => True) (J := Inv C) (f := remaining C)
    (fun hinv hstep _ => ⟨hinv.step hC hstep, hinv.remaining_lt hC hstep⟩) (inv_of_reaches hC h)
  refine ⟨l, t, hrun, ?_⟩
  by_contra hnot
  obtain ⟨a, u, hstep⟩ := (inv_of_reaches hC (h.trans hrun.reaches)).exists_step hC hnot
  exact hstuck a u hstep trivial

/-- **From any state of a run of the whole system the session can be completed**, and no
run is longer than a bound: ranks that are still connecting, have begun, or have returned,
in whatever order their steps come, cannot block each other. -/
theorem startup_completes : ∃ bound, ∀ l s,
    Lts.Run (Step C) (fun _ _ => True) (State.init C) l s →
      l.length ≤ bound ∧
      ∃ rest t, Lts.Run (Step C) (fun _ _ => True) s rest t ∧ Completed C t := by
  refine ⟨remaining C (State.init C), fun l s hrun => ⟨?_, exists_completed hC hrun.reaches⟩⟩
  have hle := hrun.length_add_le (J := Inv C) (f := remaining C)
    (fun hinv hstep _ => ⟨hinv.step hC hstep, hinv.remaining_lt hC hstep⟩) inv_init
  exact (Nat.le_add_right _ _).trans hle

omit hC in
theorem finished_view (hdone : Completed C s) : ∀ r < C.worldSize, ((view C s).node r).Finished :=
  fun r hr => (view_of_entered (hdone r hr).1).symm ▸ (hdone r hr).2

theorem Inv.userMem_of_completed (h : Inv C s) (hdone : Completed C s) (hposed : C.WellPosed) :
    userMem (fun r => (s.node r).mem)
      = C.ops.foldl (fun M o => o.meaning C.topology C.worldSize M) (userMem C.mem) := by
  rw [← TopologyType.userMem_of_completed hC.two_le h.net (finished_view hdone) hposed]
  exact congrArg userMem (funext fun r => (h.mem_view r).symm)

theorem Inv.returned_of_completed (h : Inv C s) (hdone : Completed C s) {r : ℕ}
    (hr : r < C.worldSize) : (s.node r).Returned true := by
  rw [← view_of_entered (C := C) (hdone r hr).1]
  exact (((C.topology.schedule_operations hC.two_le hC.ops).completed C.mem h.net
    (finished_view hdone)).1 r).1

/-- **The session gives what its operations mean**, whenever each rank got its table, its
connections and its turn: when all ranks have returned, every call has returned what was
expected, no connection has anything in transit, and if the operations are well posed, the
buffers hold the composition of their meanings. -/
theorem startup_computes (h : (Step C).Reaches (State.init C) s) (hdone : Completed C s) :
    (∀ r < C.worldSize, (s.node r).Returned true) ∧
      (∀ r < C.worldSize, ∀ p e, s.links.transports (r, p) = some e →
        s.data e = [] ∧ s.links.stream e = []) ∧
      (C.WellPosed → userMem (fun r => (s.node r).mem)
        = C.ops.foldl (fun M o => o.meaning C.topology C.worldSize M) (userMem C.mem)) := by
  have hinv := inv_of_reaches hC h
  have hpaired := InitTransports.paired_peers C.topology hC.two_le
  have hlinks := InitTransports.inv_of_reaches hpaired hinv.links
  have hchan := ((C.topology.schedule_operations hC.two_le hC.ops).completed C.mem
    hinv.net (finished_view hdone)).2
  refine ⟨fun r hr => hinv.returned_of_completed hC hdone hr, fun r hr p e hget => ?_,
    hinv.userMem_of_completed hC hdone⟩
  obtain rfl := hlinks.eq_endOf hpaired hget
  have hp := (InitTransports.isSome_transports hC.two_le hinv.links hr
    (hinv.entered r (hdone r hr).1).2).mp (by rw [hget]; rfl)
  have hpn := (TopologyType.getNeighbors_wf hC.two_le hr hp).1
  -- the peer has received the rank before it began
  exact ⟨hchan r p, (InitTransports.transports_of_returned hC.two_le hinv.links hpn
    (hinv.entered p (hdone p hpn).1).2 (TopologyType.mem_getNeighbors_of_mem hr hp)).2⟩

end Results

/-- Three ranks on one host sum up their rank numbers. -/
def threeRanks : Config (BitVec 32) where
  topology := .ring
  worldSize := 3
  ip _ := [49, 50, 55, 46, 48, 46, 48, 46, 49]
  dataPort r := BitVec.ofNat 16 (4000 + r)
  ops := TopologyType.threeRanks
  mem r _ _ := BitVec.ofNat 32 r

theorem valid_threeRanks : threeRanks.Valid where
  two_le := by decide
  ip r _ := by
    show 9 < 2 ^ 31
    decide
  frame := by decide
  distinct := by decide
  ops := TopologyType.valid_threeRanks

theorem startup_completes_three : ∃ l t, Lts.Run (Step threeRanks) (fun _ _ => True)
    (State.init threeRanks) l t ∧ Completed threeRanks t := by
  obtain ⟨_, hall⟩ := startup_completes valid_threeRanks
  exact (hall [] _ (.nil _)).2

/-- Rank 1 has been sent the sum. -/
theorem startup_computes_three : ∃ s, (Step threeRanks).Reaches (State.init threeRanks) s ∧
    (∀ r < 3, (s.node r).Returned true) ∧ ∀ i < 3, (s.node 1).mem (.user 2) i = 3#32 := by
  obtain ⟨l, s, hrun, hdone⟩ := exists_completed valid_threeRanks .refl
  obtain ⟨hret, -, hmem⟩ := startup_computes valid_threeRanks hrun.reaches hdone
  refine ⟨s, hrun.reaches, hret, fun i hi => ?_⟩
  have hvalue : ∀ i < 3, threeRanks.ops.foldl (fun M o => o.meaning .ring 3 M)
      (userMem threeRanks.mem) 1 2 i = 3#32 := by decide
  exact (congrFun (congrFun (congrFun (hmem TopologyType.wellPosed_threeRanks) 1) 2) i).trans
    (hvalue i hi)

end CommunicatorInit

end MiniCcl
