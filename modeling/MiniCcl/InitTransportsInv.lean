/-
MiniCcl/InitTransportsInv.lean

The invariant of `InitTransports`, one part for each thing that the steps change.

* `Phases`: which threads have returned in which phase of a rank;
* `Held`: a connection that has been made is in the backlog or belongs to one accept
  thread;
* `Messages`: the rank of the connector is on the way from when it has been sent until
  an accept thread has read it, and is all that is ever sent;
* `Filed`: the maps have the entries that the threads have inserted.

Each part says how it is kept when one component changes, and `Inv.step` puts these
lemmas together.
-/
import MiniCcl.InitTransports

namespace MiniCcl.InitTransports

/-! ### The invariant -/

/-- The connect threads have been joined. -/
def Phase.ConnectJoined : Phase → Prop
  | start => False
  | joinConnect => False
  | _ => True

/-- The accept threads have been joined too. -/
def Phase.AcceptJoined : Phase → Prop
  | announcing _ => True
  | returned => True
  | _ => False

/-- The rank has been sent to `peer`, if the rank is connected to it. -/
def Phase.Announced (peer : ℕ) : Phase → Prop
  | announcing rest => peer ∉ rest
  | returned => True
  | _ => False

/-- The rank has been received. -/
def AcceptThread.Read (connector : ℕ) (t : AcceptThread) : Prop :=
  (∃ peerRank, t = received peerRank connector) ∨ ∃ peerRank, t = returned peerRank connector

/-- How far the threads are in each phase. -/
structure Phases (P : Peers) (worldSize : ℕ) (phase : ℕ → Phase)
    (connectThread : Connection → ConnectThread) (acceptThread : ℕ × ℕ → AcceptThread)
    (backlog : ℕ → List ℕ) : Prop where
  lt : ∀ r, phase r ≠ .start → r < worldSize
  connecting : ∀ r, phase r = .start → ∀ peer, connectThread ⟨r, peer⟩ = .connecting
  waiting : ∀ r, phase r = .start → ∀ i, acceptThread (r, i) = .waiting
  backlog : ∀ r, phase r = .start → backlog r = []
  connectJoined : ∀ r, (phase r).ConnectJoined → ∀ peer ∈ P.connect r,
    connectThread ⟨r, peer⟩ = .returned
  acceptJoined : ∀ r, (phase r).AcceptJoined → ∀ i < (P.accept r).length,
    ∃ peerRank connector, acceptThread (r, i) = .returned peerRank connector
  announcing : ∀ r rest, phase r = .announcing rest → rest <:+ P.connect r

/-- A connection that has been made is in the backlog or has been got by one thread. -/
structure Held (P : Peers) (connectThread : Connection → ConnectThread)
    (acceptThread : ℕ × ℕ → AcceptThread) (backlog : ℕ → List ℕ) : Prop where
  link : ∀ r peer, connectThread ⟨r, peer⟩ ≠ .connecting → peer ∈ P.connect r
  nodup : ∀ r, (backlog r).Nodup
  bound : ∀ r i connector, (acceptThread (r, i)).conn? = some connector → i < (P.accept r).length
  unique : ∀ r i j connector, (acceptThread (r, i)).conn? = some connector →
    (acceptThread (r, j)).conn? = some connector → i = j
  disjoint : ∀ r i connector, (acceptThread (r, i)).conn? = some connector →
    connector ∉ backlog r
  made : ∀ r connector, connectThread ⟨connector, r⟩ ≠ .connecting ↔
    connector ∈ backlog r ∨ ∃ i, (acceptThread (r, i)).conn? = some connector

/-- What is on the way over a connection. -/
structure Messages (P : Peers) (phase : ℕ → Phase) (acceptThread : ℕ × ℕ → AcceptThread)
    (stream : Endpoint → List ℕ) : Prop where
  key : ∀ r i peerRank connector, acceptThread (r, i) = .received peerRank connector ∨
    acceptThread (r, i) = .returned peerRank connector → peerRank = connector
  unsent : ∀ r, ∀ peer ∈ P.connect r, ¬ (phase r).Announced peer →
    stream ⟨⟨r, peer⟩, .connector⟩ = [] ∧ ∀ i, ¬ (acceptThread (peer, i)).Read r
  sent : ∀ r, ∀ peer ∈ P.connect r, (phase r).Announced peer →
    (∀ i, ¬ (acceptThread (peer, i)).Read r) → stream ⟨⟨r, peer⟩, .connector⟩ = [r]
  read : ∀ r, ∀ peer ∈ P.connect r, ∀ i, (acceptThread (peer, i)).Read r →
    stream ⟨⟨r, peer⟩, .connector⟩ = []

/-- The entries of the maps are those that the threads have made. -/
def Filed (connectThread : Connection → ConnectThread) (acceptThread : ℕ × ℕ → AcceptThread)
    (transports : ℕ × ℕ → Option Endpoint) : Prop :=
  ∀ r peer e, transports (r, peer) = some e ↔
    (connectThread ⟨r, peer⟩ = .returned ∧ e = ⟨⟨r, peer⟩, .connector⟩) ∨
      ∃ i connector, acceptThread (r, i) = .returned peer connector ∧
        e = ⟨⟨connector, r⟩, .acceptor⟩

structure Inv (P : Peers) (worldSize : ℕ) (s : State) : Prop where
  phases : Phases P worldSize s.phase s.connectThread s.acceptThread s.backlog
  held : Held P s.connectThread s.acceptThread s.backlog
  messages : Messages P s.phase s.acceptThread s.stream
  filed : Filed s.connectThread s.acceptThread s.transports

section Step

variable {P : Peers} {worldSize : ℕ} {s t : State} {a : Action}

theorem inv_init : Inv P worldSize State.init where
  phases :=
    { lt := fun r h => absurd rfl h
      connecting := fun _ _ _ => rfl
      waiting := fun _ _ _ => rfl
      backlog := fun _ _ => rfl
      connectJoined := fun _ h => h.elim
      acceptJoined := fun _ h => h.elim
      announcing := fun _ _ h => nomatch h }
  held :=
    { link := fun _ _ h => absurd rfl h
      nodup := fun _ => List.nodup_nil
      bound := fun _ _ _ h => nomatch h
      unique := fun _ _ _ _ h => nomatch h
      disjoint := fun _ _ _ h => nomatch h
      made := fun _ _ => ⟨fun h => absurd rfl h, fun h => nomatch h⟩ }
  messages :=
    { key := fun _ _ _ _ h => nomatch h
      unsent := fun _ _ _ _ => ⟨rfl, fun _ h => nomatch h⟩
      sent := fun _ _ _ h => h.elim
      read := fun _ _ _ _ _ => rfl }
  filed r peer e := by
    refine ⟨(fun h => nomatch h), ?_⟩
    rintro (⟨h, -⟩ | ⟨i, connector, h, -⟩) <;> cases h

end Step

open Function

/-- What an update leaves at its place, it leaves everywhere. -/
theorem update_iff {ι β : Type*} [DecidableEq ι] (f : ι → β) {i : ι} {v : β} (p : β → Prop)
    (hv : p v ↔ p (f i)) (j : ι) : p (update f i v j) ↔ p (f j) := by
  rcases eq_or_ne j i with rfl | hne
  · rwa [update_self]
  · rw [update_of_ne hne]

/-- An update makes a predicate true at its place only. -/
theorem update_or_iff {ι β : Type*} [DecidableEq ι] (f : ι → β) {i : ι} {v : β} (p : β → Prop)
    (hf : ¬ p (f i)) (j : ι) : p (update f i v j) ↔ p (f j) ∨ j = i ∧ p v := by
  rcases eq_or_ne j i with rfl | hne
  · simp [hf]
  · simp [hne]

/-! ### Phases -/

namespace Phases

variable {P : Peers} {worldSize : ℕ} {phase : ℕ → Phase}
  {connectThread : Connection → ConnectThread} {acceptThread : ℕ × ℕ → AcceptThread}
  {backlog : ℕ → List ℕ} {r : ℕ}
  (h : Phases P worldSize phase connectThread acceptThread backlog)
include h

theorem setPhase {p : Phase} (hr : r < worldSize) (hstart : p ≠ .start)
    (hconnect : p.ConnectJoined → ∀ peer ∈ P.connect r, connectThread ⟨r, peer⟩ = .returned)
    (haccept : p.AcceptJoined → ∀ i < (P.accept r).length,
      ∃ peerRank connector, acceptThread (r, i) = .returned peerRank connector)
    (hrest : ∀ rest, p = .announcing rest → rest <:+ P.connect r) :
    Phases P worldSize (update phase r p) connectThread acceptThread backlog := by
  -- no rank goes back to the start, and the others stay where they are
  have hold : ∀ q, update phase r p q = .start → phase q = .start := by
    intro q hq
    by_cases hqr : q = r
    · rw [hqr, update_self] at hq
      exact absurd hq hstart
    · rwa [update_of_ne hqr] at hq
  exact
    { lt := (forall_update_iff phase fun q p => p ≠ .start → q < worldSize).mpr
        ⟨fun _ => hr, fun q _ => h.lt q⟩
      connecting := fun q hq => h.connecting q (hold q hq)
      waiting := fun q hq => h.waiting q (hold q hq)
      backlog := fun q hq => h.backlog q (hold q hq)
      connectJoined := (forall_update_iff phase fun q p => p.ConnectJoined →
          ∀ peer ∈ P.connect q, connectThread ⟨q, peer⟩ = .returned).mpr
        ⟨hconnect, fun q _ => h.connectJoined q⟩
      acceptJoined := (forall_update_iff phase fun q p => p.AcceptJoined →
          ∀ i < (P.accept q).length,
            ∃ peerRank connector, acceptThread (q, i) = .returned peerRank connector).mpr
        ⟨haccept, fun q _ => h.acceptJoined q⟩
      announcing := (forall_update_iff phase fun q p =>
          ∀ rest, p = .announcing rest → rest <:+ P.connect q).mpr
        ⟨hrest, fun q _ => h.announcing q⟩ }

/-- A connect thread goes on. -/
theorem setConnect {peer : ℕ} {v : ConnectThread} (hspawned : phase r ≠ .start)
    (hv : connectThread ⟨r, peer⟩ = .returned → v = .returned) :
    Phases P worldSize phase (update connectThread ⟨r, peer⟩ v) acceptThread backlog where
  lt := h.lt
  connecting q hq peer' := by
    have hne : (⟨q, peer'⟩ : Connection) ≠ ⟨r, peer⟩ := by
      rintro ⟨⟩
      exact hspawned hq
    rw [update_of_ne hne]
    exact h.connecting q hq peer'
  waiting := h.waiting
  backlog := h.backlog
  connectJoined q hq peer' hpeer' := by
    have hold := h.connectJoined q hq peer' hpeer'
    by_cases heq : (⟨q, peer'⟩ : Connection) = ⟨r, peer⟩
    · rw [heq] at hold ⊢
      rw [update_self]
      exact hv hold
    · rwa [update_of_ne heq]
  acceptJoined := h.acceptJoined
  announcing := h.announcing

/-- An accept thread goes on. -/
theorem setAccept {i : ℕ} {v : AcceptThread} (hspawned : phase r ≠ .start)
    (hv : ∀ peerRank connector, acceptThread (r, i) ≠ .returned peerRank connector) :
    Phases P worldSize phase connectThread (update acceptThread (r, i) v) backlog where
  lt := h.lt
  connecting := h.connecting
  waiting q hq j := by
    have hne : (q, j) ≠ (r, i) := by
      rintro ⟨⟩
      exact hspawned hq
    rw [update_of_ne hne]
    exact h.waiting q hq j
  backlog := h.backlog
  connectJoined := h.connectJoined
  acceptJoined q hq j hj := by
    have hold := h.acceptJoined q hq j hj
    by_cases heq : (q, j) = (r, i)
    · rw [heq] at hold
      obtain ⟨peerRank, connector, hold⟩ := hold
      exact absurd hold (hv peerRank connector)
    · rwa [update_of_ne heq]
  announcing := h.announcing

theorem setBacklog {l : List ℕ} (hspawned : phase r ≠ .start) :
    Phases P worldSize phase connectThread acceptThread (update backlog r l) where
  lt := h.lt
  connecting := h.connecting
  waiting := h.waiting
  backlog q hq := by
    have hne : q ≠ r := by
      rintro rfl
      exact hspawned hq
    rw [update_of_ne hne]
    exact h.backlog q hq
  connectJoined := h.connectJoined
  acceptJoined := h.acceptJoined
  announcing := h.announcing

end Phases

/-! ### Connections -/

namespace Held

variable {P : Peers} {connectThread : Connection → ConnectThread}
  {acceptThread : ℕ × ℕ → AcceptThread} {backlog : ℕ → List ℕ} {r : ℕ}
  (h : Held P connectThread acceptThread backlog)
include h

/-- A new connection goes to the backlog. -/
theorem connect {peer : ℕ} (hpeer : peer ∈ P.connect r)
    (hconnecting : connectThread ⟨r, peer⟩ = .connecting) :
    Held P (update connectThread ⟨r, peer⟩ .connected) acceptThread
      (update backlog peer (backlog peer ++ [r])) := by
  have hnot : ¬ (r ∈ backlog peer ∨ ∃ i, (acceptThread (peer, i)).conn? = some r) :=
    fun hmade => (h.made peer r).mpr hmade hconnecting
  push Not at hnot
  obtain ⟨hbacklog, hthread⟩ := hnot
  -- the other connections of a backlog are as before
  have hmem : ∀ q c, (⟨c, q⟩ : Connection) ≠ ⟨r, peer⟩ →
      (c ∈ update backlog peer (backlog peer ++ [r]) q ↔ c ∈ backlog q) := by
    intro q c hne
    by_cases hq : q = peer
    · subst hq
      have hcr : c ≠ r := by
        rintro rfl
        exact hne rfl
      rw [update_self, List.mem_append, List.mem_singleton]
      exact ⟨fun hc => hc.resolve_right hcr, .inl⟩
    · rw [update_of_ne hq]
  refine ⟨fun q peer' hq => ?_, fun q => ?_, h.bound, h.unique, fun q i c hc => ?_,
    fun q c => ?_⟩
  · by_cases heq : (⟨q, peer'⟩ : Connection) = ⟨r, peer⟩
    · cases heq
      exact hpeer
    · rw [update_of_ne heq] at hq
      exact h.link q peer' hq
  · by_cases hq : q = peer
    · subst hq
      rw [update_self]
      refine (h.nodup q).append (List.nodup_singleton r) fun c hc hcr => hbacklog ?_
      rwa [← List.mem_singleton.mp hcr]
    · rw [update_of_ne hq]
      exact h.nodup q
  · have hne : (⟨c, q⟩ : Connection) ≠ ⟨r, peer⟩ := by
      rintro ⟨⟩
      exact hthread i hc
    rw [hmem q c hne]
    exact h.disjoint q i c hc
  · by_cases heq : (⟨c, q⟩ : Connection) = ⟨r, peer⟩
    · cases heq
      rw [update_self, update_self]
      exact iff_of_true nofun (.inl (List.mem_append_right _ (List.mem_singleton_self r)))
    · rw [update_of_ne heq, hmem q c heq]
      exact h.made q c

theorem setConnect {peer : ℕ} {v : ConnectThread} (hv : v ≠ .connecting)
    (hconnected : connectThread ⟨r, peer⟩ ≠ .connecting) :
    Held P (update connectThread ⟨r, peer⟩ v) acceptThread backlog := by
  have hiff := update_iff connectThread (fun w => w ≠ .connecting) (iff_of_true hv hconnected)
  exact ⟨fun q peer' hq => h.link q peer' ((hiff _).mp hq), h.nodup, h.bound, h.unique,
    h.disjoint, fun q c => (hiff _).trans (h.made q c)⟩

/-- A waiting thread gets a connection of the backlog. -/
theorem accept {i connector : ℕ} (hi : i < (P.accept r).length)
    (hwaiting : acceptThread (r, i) = .waiting) (hmem : connector ∈ backlog r) :
    Held P connectThread (update acceptThread (r, i) (.accepted connector))
      (update backlog r ((backlog r).erase connector)) := by
  have hconn : ∀ q j c,
      (update acceptThread (r, i) (.accepted connector) (q, j)).conn? = some c ↔
        (acceptThread (q, j)).conn? = some c ∨ (q = r ∧ j = i) ∧ c = connector := by
    intro q j c
    rw [update_or_iff acceptThread (fun w => w.conn? = some c)
      (by simp [hwaiting, AcceptThread.conn?])]
    simp [AcceptThread.conn?, eq_comm]
  have hbacklog : ∀ q c, c ∈ update backlog r ((backlog r).erase connector) q ↔
      c ∈ backlog q ∧ ¬ (q = r ∧ c = connector) := by
    intro q c
    by_cases hq : q = r
    · subst hq
      rw [update_self, (h.nodup q).mem_erase_iff, and_comm]
      simp
    · rw [update_of_ne hq]
      exact ⟨fun hc => ⟨hc, fun hr => hq hr.1⟩, And.left⟩
  refine ⟨h.link, fun q => ?_, fun q j c hc => ?_, fun q j j' c hc hc' => ?_, fun q j c hc => ?_,
    fun q c => ?_⟩
  · by_cases hq : q = r
    · subst hq
      rw [update_self]
      exact (h.nodup q).erase connector
    · rw [update_of_ne hq]
      exact h.nodup q
  · rcases (hconn q j c).mp hc with hold | ⟨⟨rfl, rfl⟩, -⟩
    · exact h.bound q j c hold
    · exact hi
  · -- a connection of the backlog is not that of another thread
    rcases (hconn q j c).mp hc with hold | ⟨⟨rfl, rfl⟩, rfl⟩
    · rcases (hconn q j' c).mp hc' with hold' | ⟨⟨rfl, rfl⟩, rfl⟩
      · exact h.unique q j j' c hold hold'
      · exact absurd hmem (h.disjoint q j c hold)
    · rcases (hconn q j' c).mp hc' with hold' | ⟨⟨-, rfl⟩, -⟩
      · exact absurd hmem (h.disjoint q j' c hold')
      · rfl
  · rw [hbacklog]
    rintro ⟨hin, hnot⟩
    rcases (hconn q j c).mp hc with hold | ⟨⟨rfl, rfl⟩, rfl⟩
    · exact h.disjoint q j c hold hin
    · exact hnot ⟨rfl, rfl⟩
  · rw [h.made q c, hbacklog]
    simp only [hconn]
    constructor
    · rintro (hin | ⟨j, hj⟩)
      · by_cases hnew : q = r ∧ c = connector
        · exact .inr ⟨i, .inr ⟨⟨hnew.1, rfl⟩, hnew.2⟩⟩
        · exact .inl ⟨hin, hnew⟩
      · exact .inr ⟨j, .inl hj⟩
    · rintro (⟨hin, -⟩ | ⟨j, hj | ⟨⟨rfl, -⟩, rfl⟩⟩)
      · exact .inl hin
      · exact .inr ⟨j, hj⟩
      · exact .inl hmem

/-- A thread keeps its connection. -/
theorem setAccept {i : ℕ} {v : AcceptThread} (hv : v.conn? = (acceptThread (r, i)).conn?) :
    Held P connectThread (update acceptThread (r, i) v) backlog := by
  have hconn : ∀ x c, (update acceptThread (r, i) v x).conn? = some c ↔
      (acceptThread x).conn? = some c :=
    fun x c => update_iff acceptThread (fun w => w.conn? = some c) (by rw [hv]) x
  refine ⟨h.link, h.nodup, fun q j c hc => ?_, fun q j j' c hc hc' => ?_, fun q j c hc => ?_,
    fun q c => ?_⟩
  · rw [hconn] at hc
    exact h.bound q j c hc
  · rw [hconn] at hc hc'
    exact h.unique q j j' c hc hc'
  · rw [hconn] at hc
    exact h.disjoint q j c hc
  · simp only [hconn]
    exact h.made q c

end Held

/-! ### Messages -/

namespace Messages

variable {P : Peers} {phase : ℕ → Phase} {acceptThread : ℕ × ℕ → AcceptThread}
  {stream : Endpoint → List ℕ} {r : ℕ} (h : Messages P phase acceptThread stream)
include h

/-- A phase in which nothing more has been sent. -/
theorem setPhase {p : Phase}
    (hp : ∀ peer ∈ P.connect r, p.Announced peer ↔ (phase r).Announced peer) :
    Messages P (update phase r p) acceptThread stream := by
  have hiff : ∀ q, ∀ peer ∈ P.connect q,
      (update phase r p q).Announced peer ↔ (phase q).Announced peer := by
    intro q peer hpeer
    by_cases hq : q = r
    · subst hq
      rw [update_self]
      exact hp peer hpeer
    · rw [update_of_ne hq]
  refine ⟨h.key, fun q peer hpeer hnot => ?_, fun q peer hpeer hq => ?_, h.read⟩
  · exact h.unsent q peer hpeer fun hq => hnot ((hiff q peer hpeer).mpr hq)
  · exact h.sent q peer hpeer ((hiff q peer hpeer).mp hq)

/-- A thread that does not read a message. -/
theorem setAccept {i : ℕ} {v : AcceptThread}
    (hv : ∀ connector, v.Read connector ↔ (acceptThread (r, i)).Read connector)
    (hkey : ∀ peerRank connector, v = .received peerRank connector ∨
      v = .returned peerRank connector → peerRank = connector) :
    Messages P phase (update acceptThread (r, i) v) stream := by
  have hiff : ∀ x connector,
      (update acceptThread (r, i) v x).Read connector ↔ (acceptThread x).Read connector :=
    fun x connector => update_iff acceptThread (fun w => w.Read connector) (hv connector) x
  refine ⟨fun q j peerRank connector hq => ?_, ?_, ?_, ?_⟩
  · by_cases hqj : (q, j) = (r, i)
    · rw [hqj, update_self] at hq
      exact hkey peerRank connector hq
    · rw [update_of_ne hqj] at hq
      exact h.key q j peerRank connector hq
  · simp only [hiff]
    exact h.unsent
  · simp only [hiff]
    exact h.sent
  · simp only [hiff]
    exact h.read

/-- The next peer is told the rank. -/
theorem sendRank {peer : ℕ} {rest : List ℕ} (hrest : peer :: rest <:+ P.connect r)
    (hnodup : (P.connect r).Nodup) (hphase : phase r = .announcing (peer :: rest)) :
    Messages P (update phase r (.announcing rest)) acceptThread
      (update stream ⟨⟨r, peer⟩, .connector⟩ (stream ⟨⟨r, peer⟩, .connector⟩ ++ [r])) := by
  have hpeer : peer ∈ P.connect r := hrest.subset List.mem_cons_self
  have hnot : peer ∉ rest := (List.nodup_cons.mp (hnodup.sublist hrest.sublist)).1
  obtain ⟨hempty, hunread⟩ := h.unsent r peer hpeer (by
    rw [hphase]
    exact fun hmem => hmem List.mem_cons_self)
  have hannounced : ∀ q peer', (update phase r (.announcing rest) q).Announced peer' ↔
      (phase q).Announced peer' ∨ q = r ∧ peer' = peer := by
    intro q peer'
    by_cases hq : q = r
    · subst hq
      rw [update_self, hphase]
      show peer' ∉ rest ↔ peer' ∉ peer :: rest ∨ _
      by_cases hpp : peer' = peer
      · subst hpp
        exact iff_of_true hnot (.inr ⟨rfl, rfl⟩)
      · simp [hpp]
    · rw [update_of_ne hq]
      exact ⟨.inl, fun hor => hor.resolve_right fun hr => hq hr.1⟩
  have hstream : ∀ q peer', ¬ (q = r ∧ peer' = peer) →
      update stream ⟨⟨r, peer⟩, .connector⟩ (stream ⟨⟨r, peer⟩, .connector⟩ ++ [r])
        ⟨⟨q, peer'⟩, .connector⟩ = stream ⟨⟨q, peer'⟩, .connector⟩ := by
    intro q peer' hne
    refine update_of_ne (fun heq => hne ?_) _ _
    cases heq
    exact ⟨rfl, rfl⟩
  refine ⟨h.key, fun q peer' hpeer' hq => ?_, fun q peer' hpeer' hq hno => ?_,
    fun q peer' hpeer' i hread => ?_⟩
  · rw [hannounced] at hq
    push Not at hq
    rw [hstream q peer' fun hr => hq.2 hr.1 hr.2]
    exact h.unsent q peer' hpeer' hq.1
  · by_cases hr : q = r ∧ peer' = peer
    · obtain ⟨rfl, rfl⟩ := hr
      rw [update_self, hempty]
      rfl
    · rw [hstream q peer' hr]
      exact h.sent q peer' hpeer' (((hannounced q peer').mp hq).resolve_right hr) hno
  · have hr : ¬ (q = r ∧ peer' = peer) := by
      rintro ⟨rfl, rfl⟩
      exact hunread i hread
    rw [hstream q peer' hr]
    exact h.read q peer' hpeer' i hread

/-- A thread reads the rank of the connector. -/
theorem recvRank {i connector peerRank : ℕ} {rest : List ℕ} (hpeer : r ∈ P.connect connector)
    (hthread : acceptThread (r, i) = .accepted connector)
    (hothers : ∀ j, j ≠ i → ¬ (acceptThread (r, j)).Read connector)
    (hrecv : stream ⟨⟨connector, r⟩, .connector⟩ = peerRank :: rest) :
    Messages P phase (update acceptThread (r, i) (.received peerRank connector))
      (update stream ⟨⟨connector, r⟩, .connector⟩ rest) := by
  have hunread : ∀ j, ¬ (acceptThread (r, j)).Read connector := by
    intro j
    by_cases hj : j = i
    · rw [hj, hthread]
      rintro (⟨v, hv⟩ | ⟨v, hv⟩) <;> cases hv
    · exact hothers j hj
  -- the message is there, so it has been sent
  have hannounced : (phase connector).Announced r := by
    by_contra hnot
    rw [(h.unsent connector r hpeer hnot).1] at hrecv
    cases hrecv
  rw [h.sent connector r hpeer hannounced hunread] at hrecv
  obtain ⟨rfl, rfl⟩ := List.cons.inj hrecv
  have hread : ∀ x c, (update acceptThread (r, i) (.received connector connector) x).Read c ↔
      (acceptThread x).Read c ∨ x = (r, i) ∧ c = connector := by
    intro x c
    rw [update_or_iff acceptThread (fun w => w.Read c) (by simp [hthread, AcceptThread.Read])]
    simp [AcceptThread.Read, eq_comm]
  have hstream : ∀ q peer', ¬ (q = connector ∧ peer' = r) →
      update stream ⟨⟨connector, r⟩, .connector⟩ [] ⟨⟨q, peer'⟩, .connector⟩
        = stream ⟨⟨q, peer'⟩, .connector⟩ := by
    intro q peer' hne
    refine update_of_ne (fun heq => hne ?_) _ _
    cases heq
    exact ⟨rfl, rfl⟩
  refine ⟨fun q j v c hq => ?_, fun q peer' hpeer' hq => ?_, fun q peer' hpeer' hq hno => ?_,
    fun q peer' hpeer' j hj => ?_⟩
  · by_cases hqj : (q, j) = (r, i)
    · rw [hqj, update_self] at hq
      rcases hq with hq | hq <;> cases hq
      rfl
    · rw [update_of_ne hqj] at hq
      exact h.key q j v c hq
  · have hne : ¬ (q = connector ∧ peer' = r) := by
      rintro ⟨rfl, rfl⟩
      exact hq hannounced
    obtain ⟨hempty, hno⟩ := h.unsent q peer' hpeer' hq
    rw [hstream q peer' hne]
    refine ⟨hempty, fun j hj => ?_⟩
    rcases (hread _ _).mp hj with hold | ⟨hx, rfl⟩
    · exact hno j hold
    · exact hne ⟨rfl, (Prod.mk.inj hx).1⟩
  · have hne : ¬ (q = connector ∧ peer' = r) := by
      rintro ⟨rfl, rfl⟩
      exact hno i ((hread _ _).mpr (.inr ⟨rfl, rfl⟩))
    rw [hstream q peer' hne]
    exact h.sent q peer' hpeer' hq fun j hj => hno j ((hread _ _).mpr (.inl hj))
  · by_cases hr : q = connector ∧ peer' = r
    · obtain ⟨rfl, rfl⟩ := hr
      exact update_self _ _ _
    · rw [hstream q peer' hr]
      rcases (hread _ _).mp hj with hold | ⟨hx, rfl⟩
      · exact h.read q peer' hpeer' j hold
      · exact absurd ⟨rfl, (Prod.mk.inj hx).1⟩ hr

end Messages

/-! ### Transports -/

namespace Filed

variable {connectThread : Connection → ConnectThread} {acceptThread : ℕ × ℕ → AcceptThread}
  {transports : ℕ × ℕ → Option Endpoint} {r : ℕ}
  (h : Filed connectThread acceptThread transports)
include h

theorem setConnect {c : Connection} {v : ConnectThread} (hv : v ≠ .returned)
    (hold : connectThread c ≠ .returned) :
    Filed (update connectThread c v) acceptThread transports := by
  intro q peer e
  have hiff := update_iff connectThread (fun w => w = .returned) (iff_of_false hv hold) ⟨q, peer⟩
  rw [hiff]
  exact h q peer e

theorem setAccept {x : ℕ × ℕ} {v : AcceptThread}
    (hv : ∀ peerRank connector, v ≠ .returned peerRank connector)
    (hold : ∀ peerRank connector, acceptThread x ≠ .returned peerRank connector) :
    Filed connectThread (update acceptThread x v) transports := by
  intro q peer e
  have hiff : ∀ i connector, update acceptThread x v (q, i) = .returned peer connector ↔
      acceptThread (q, i) = .returned peer connector :=
    fun i connector => update_iff acceptThread (fun w => w = .returned peer connector)
      (iff_of_false (hv peer connector) (hold peer connector)) (q, i)
  simp only [hiff]
  exact h q peer e

theorem insertConnected {peer : ℕ}
    (hno : ∀ i connector, acceptThread (r, i) ≠ .returned peer connector) :
    Filed (update connectThread ⟨r, peer⟩ .returned) acceptThread
      (update transports (r, peer) (some ⟨⟨r, peer⟩, .connector⟩)) := by
  intro q p e
  by_cases hqp : (q, p) = (r, peer)
  · obtain ⟨rfl, rfl⟩ := Prod.mk.inj hqp
    rw [update_self, update_self, Option.some.injEq]
    constructor
    · rintro rfl
      exact .inl ⟨rfl, rfl⟩
    · rintro (⟨-, rfl⟩ | ⟨i, c, hi, -⟩)
      · rfl
      · exact absurd hi (hno i c)
  · have hc : (⟨q, p⟩ : Connection) ≠ ⟨r, peer⟩ := by
      rintro ⟨⟩
      exact hqp rfl
    rw [update_of_ne hqp, update_of_ne hc]
    exact h q p e

theorem insertReceived {i peerRank connector : ℕ}
    (hold : ∀ p c, acceptThread (r, i) ≠ .returned p c)
    (hconnect : connectThread ⟨r, peerRank⟩ ≠ .returned)
    (hothers : ∀ j c, acceptThread (r, j) ≠ .returned peerRank c) :
    Filed connectThread (update acceptThread (r, i) (.returned peerRank connector))
      (update transports (r, peerRank) (some ⟨⟨connector, r⟩, .acceptor⟩)) := by
  have hiff : ∀ q j p c,
      update acceptThread (r, i) (.returned peerRank connector) (q, j) = .returned p c ↔
        acceptThread (q, j) = .returned p c ∨ (q = r ∧ j = i) ∧ p = peerRank ∧ c = connector := by
    intro q j p c
    rw [update_or_iff acceptThread (fun w => w = .returned p c) (hold p c)]
    simp [eq_comm]
  intro q p e
  simp only [hiff]
  by_cases hqp : (q, p) = (r, peerRank)
  · obtain ⟨rfl, rfl⟩ := Prod.mk.inj hqp
    rw [update_self, Option.some.injEq]
    constructor
    · rintro rfl
      exact .inr ⟨i, connector, .inr ⟨⟨rfl, rfl⟩, rfl, rfl⟩, rfl⟩
    · rintro (⟨hc, -⟩ | ⟨j, c, hj | ⟨-, -, rfl⟩, rfl⟩)
      · exact absurd hc hconnect
      · exact absurd hj (hothers j c)
      · rfl
  · rw [update_of_ne hqp, h q p e]
    refine or_congr_right ⟨?_, ?_⟩
    · rintro ⟨j, c, hj, rfl⟩
      exact ⟨j, c, .inl hj, rfl⟩
    · rintro ⟨j, c, hj | ⟨⟨rfl, -⟩, rfl, -⟩, rfl⟩
      · exact ⟨j, c, hj, rfl⟩
      · exact absurd rfl hqp

end Filed

/-! ### Steps -/

namespace Inv

variable {P : Peers} {worldSize r : ℕ} {s t : State} {a : Action} (h : Inv P worldSize s)
include h

/-- A connect thread that has connected belongs to a rank that has started. -/
theorem spawned_of_connect {peer : ℕ} (hc : s.connectThread ⟨r, peer⟩ ≠ .connecting) :
    s.phase r ≠ .start :=
  fun hstart => hc (h.phases.connecting r hstart peer)

theorem spawned_of_accept {i : ℕ} (ha : s.acceptThread (r, i) ≠ .waiting) : s.phase r ≠ .start :=
  fun hstart => ha (h.phases.waiting r hstart i)

/-- The connection of an accept thread comes from a smaller rank. -/
theorem connector_wf (hP : P.Paired worldSize) {i connector : ℕ}
    (hconn : (s.acceptThread (r, i)).conn? = some connector) :
    r ∈ P.connect connector ∧ connector < worldSize ∧ connector < r := by
  have hmade := (h.held.made r connector).mpr (.inr ⟨i, hconn⟩)
  have hlink := h.held.link connector r hmade
  have hlt := h.phases.lt connector (h.spawned_of_connect hmade)
  exact ⟨hlink, hlt, (hP.connect_lt hlt hlink).1⟩

/-- No connect thread has the peer that an accept thread has. -/
theorem not_connect (hP : P.Paired worldSize) {i connector : ℕ}
    (hconn : (s.acceptThread (r, i)).conn? = some connector) :
    s.connectThread ⟨r, connector⟩ = .connecting := by
  by_contra hc
  have hr := h.phases.lt r (h.spawned_of_connect hc)
  have hlt := (hP.connect_lt hr (h.held.link r connector hc)).1
  have hgt := (h.connector_wf hP hconn).2.2
  omega

/-- An accept thread has got a connection. -/
theorem accept {i connector : ℕ} (hi : i < (P.accept r).length) (hspawned : s.phase r ≠ .start)
    (hwaiting : s.acceptThread (r, i) = .waiting) (hmem : connector ∈ s.backlog r) :
    Inv P worldSize { s with
      acceptThread := update s.acceptThread (r, i) (.accepted connector)
      backlog := update s.backlog r ((s.backlog r).erase connector) } where
  phases := by
    refine (h.phases.setAccept hspawned ?_).setBacklog hspawned
    simp [hwaiting]
  held := h.held.accept hi hwaiting hmem
  messages := by
    apply h.messages.setAccept
    · simp [hwaiting, AcceptThread.Read]
    · simp
  filed := by
    apply h.filed.setAccept
    · simp
    · simp [hwaiting]

/-- An accept thread has read the rank of its connector. -/
theorem recvRank (hP : P.Paired worldSize) {i connector peerRank : ℕ} {rest : List ℕ}
    (hthread : s.acceptThread (r, i) = .accepted connector)
    (hrecv : s.stream ⟨⟨connector, r⟩, .connector⟩ = peerRank :: rest) :
    Inv P worldSize { s with
      acceptThread := update s.acceptThread (r, i) (.received peerRank connector)
      stream := update s.stream ⟨⟨connector, r⟩, .connector⟩ rest } := by
  have hconn : (s.acceptThread (r, i)).conn? = some connector := by
    rw [hthread]
    rfl
  have hspawned : s.phase r ≠ .start := h.spawned_of_accept (i := i) (by simp [hthread])
  have hothers : ∀ j, j ≠ i → ¬ (s.acceptThread (r, j)).Read connector := by
    intro j hj hread
    apply hj
    refine h.held.unique r j i connector ?_ hconn
    rcases hread with ⟨v, hv⟩ | ⟨v, hv⟩ <;> rw [hv] <;> rfl
  exact
    { phases := h.phases.setAccept hspawned (by simp [hthread])
      held := h.held.setAccept hconn.symm
      messages := h.messages.recvRank (h.connector_wf hP hconn).1 hthread hothers hrecv
      filed := h.filed.setAccept (by simp) (by simp [hthread]) }

/-- An accept thread has inserted its connection under the rank it has read. -/
theorem insertReceived (hP : P.Paired worldSize) {i connector peerRank : ℕ}
    (hthread : s.acceptThread (r, i) = .received peerRank connector) :
    Inv P worldSize { s with
      acceptThread := update s.acceptThread (r, i) (.returned peerRank connector)
      transports := update s.transports (r, peerRank) (some ⟨⟨connector, r⟩, .acceptor⟩) } := by
  have hconn : (s.acceptThread (r, i)).conn? = some connector := by
    rw [hthread]
    rfl
  have hspawned : s.phase r ≠ .start := h.spawned_of_accept (i := i) (by simp [hthread])
  have hnot : ∀ p c, s.acceptThread (r, i) ≠ .returned p c := by simp [hthread]
  have hkey := h.messages.key r i peerRank connector (.inl hthread)
  subst hkey
  refine ⟨h.phases.setAccept hspawned hnot, h.held.setAccept hconn.symm,
    h.messages.setAccept ?_ ?_, h.filed.insertReceived hnot ?_ ?_⟩
  · simp [hthread, AcceptThread.Read]
  · rintro v c (hv | hv) <;> cases hv
    rfl
  · simp [h.not_connect hP hconn]
  · intro j c hj
    -- no other thread has the connection
    have hkeyj := h.messages.key r j peerRank c (.inr hj)
    subst hkeyj
    obtain rfl := h.held.unique r j i peerRank (by rw [hj]; rfl) hconn
    exact hnot _ _ hj

/-- The main thread has told its rank to the next peer. -/
theorem sendRank (hP : P.Paired worldSize) {peer : ℕ} {rest : List ℕ} {e : Endpoint}
    (hphase : s.phase r = .announcing (peer :: rest))
    (hget : s.transports (r, peer) = some e) :
    Inv P worldSize { s with
      phase := update s.phase r (.announcing rest)
      stream := update s.stream e (s.stream e ++ [r]) } := by
  have hr := h.phases.lt r (by simp [hphase])
  have hconnect := h.phases.connectJoined r (by rw [hphase]; trivial)
  have haccept := h.phases.acceptJoined r (by rw [hphase]; trivial)
  have hrest := h.phases.announcing r _ hphase
  -- the entry for the peer is the end that its thread has inserted
  have hreturned := hconnect peer (hrest.subset List.mem_cons_self)
  have hentry := (h.filed r peer _).mpr (.inl ⟨hreturned, rfl⟩)
  obtain rfl := Option.some.inj (hget.symm.trans hentry)
  refine ⟨h.phases.setPhase hr (by simp) (fun _ => hconnect) (fun _ => haccept) ?_, h.held,
    h.messages.sendRank hrest (hP.nodup_connect r) hphase, h.filed⟩
  rintro rest' ⟨⟩
  exact (List.suffix_cons peer rest).trans hrest

/-- **One step keeps the invariant.** -/
theorem step (hP : P.Paired worldSize) (hstep : Step P worldSize s a t) : Inv P worldSize t := by
  cases hstep with
  | @listen _ r hr hphase =>
      refine ⟨h.phases.setPhase hr (by simp) (fun hp => hp.elim) (fun hp => hp.elim) (by simp),
        h.held, h.messages.setPhase fun peer _ => ?_, h.filed⟩
      rw [hphase]
      rfl
  | @connect _ r peer hpeer hspawned hconnecting hlisten =>
      exact ⟨(h.phases.setConnect hspawned (by simp [hconnecting])).setBacklog hlisten.1,
        h.held.connect hpeer hconnecting, h.messages,
        h.filed.setConnect (by simp) (by simp [hconnecting])⟩
  | @insertConnected _ r peer hconnected =>
      have hne : s.connectThread ⟨r, peer⟩ ≠ .connecting := by simp [hconnected]
      refine ⟨h.phases.setConnect (h.spawned_of_connect hne) fun _ => rfl,
        h.held.setConnect (by simp) hne, h.messages, h.filed.insertConnected ?_⟩
      intro i c hthread
      have hkey := h.messages.key r i peer c (.inr hthread)
      subst hkey
      apply hne
      exact h.not_connect hP (i := i) (by rw [hthread]; rfl)
  | accept hi hspawned hwaiting hmem => exact h.accept hi hspawned hwaiting hmem
  | recvRank hthread hrecv => exact h.recvRank hP hthread hrecv
  | insertReceived hthread => exact h.insertReceived hP hthread
  | @joinConnect _ r hphase hjoin =>
      have hr := h.phases.lt r (by simp [hphase])
      refine ⟨h.phases.setPhase hr (by simp) (fun _ => hjoin) (fun hp => hp.elim) (by simp),
        h.held, h.messages.setPhase fun peer _ => ?_, h.filed⟩
      rw [hphase]
      rfl
  | @joinAccept _ r hphase hjoin =>
      have hr := h.phases.lt r (by simp [hphase])
      have hconnect := h.phases.connectJoined r (by rw [hphase]; trivial)
      refine ⟨h.phases.setPhase hr (by simp) (fun _ => hconnect) (fun _ => hjoin) ?_, h.held,
        h.messages.setPhase fun peer hpeer => ?_, h.filed⟩
      · rintro rest ⟨⟩
        exact List.suffix_rfl
      · rw [hphase]
        exact iff_of_false (fun hnot => hnot hpeer) id
  | sendRank hphase hget => exact h.sendRank hP hphase hget
  | @finish _ r hphase =>
      have hr := h.phases.lt r (by simp [hphase])
      have hconnect := h.phases.connectJoined r (by rw [hphase]; trivial)
      have haccept := h.phases.acceptJoined r (by rw [hphase]; trivial)
      refine ⟨h.phases.setPhase hr (by simp) (fun _ => hconnect) (fun _ => haccept) (by simp),
        h.held, h.messages.setPhase fun peer _ => ?_, h.filed⟩
      rw [hphase]
      exact iff_of_true trivial List.not_mem_nil

end Inv

theorem inv_of_reaches {P : Peers} {worldSize : ℕ} (hP : P.Paired worldSize) {s : State}
    (h : (Step P worldSize).Reaches State.init s) : Inv P worldSize s := by
  induction h with
  | refl => exact inv_init
  | tail _ hstep ih =>
      obtain ⟨a, hstep⟩ := hstep
      exact ih.step hP hstep

end MiniCcl.InitTransports
