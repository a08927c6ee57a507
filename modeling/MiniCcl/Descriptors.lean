/-
MiniCcl/Descriptors.lean

The socket descriptors of the transports of one process.

A transport records at most two descriptors, its connection and its listening
socket.  `Connect`, `Accept` and `Listen` fill the records, `Close` and the
destructor close what is recorded.  Any other part of the process may open and close
descriptors too, and the system hands out any number that is not open.

`TransportRdma::CreateAcceptedConnection` copies the record of the listening socket
into the new transport, and both will close it.  `TransportTCP` does not.  So every
descriptor has one owner in a run if and only if the run has no
`CreateAcceptedConnection` on a listening RDMA transport: `one_owner_iff`.
-/
import MiniCcl.Confluence
import Mathlib.Data.List.Nodup
import Mathlib.Logic.Function.Basic

namespace MiniCcl.Descriptors

/-! ### Transports and descriptors -/

inductive TransportType
  | tcp
  | rdma
  deriving DecidableEq, Repr

/-- `sockfd` and `listen_fd` of `TransportTCP`, `tcp_sock_fd` and `tcp_listen_fd` of
`TransportRdma`.  A descriptor below zero is none. -/
structure Transport where
  type : TransportType
  sockFd : Option ℕ
  listenFd : Option ℕ
  connected : Bool
  deriving DecidableEq, Repr

/-- The descriptors that `Close` closes. -/
def Transport.fds (t : Transport) : List ℕ := t.sockFd.toList ++ t.listenFd.toList

/-- Who has opened a descriptor. -/
inductive Owner
  | transport (id : ℕ)
  | other
  deriving DecidableEq, Repr

structure Process where
  /-- The open descriptors. -/
  os : ℕ → Option Owner
  /-- The transports that have been constructed and not been destroyed. -/
  transports : ℕ → Option Transport

namespace Process

def init : Process where
  os _ := none
  transports _ := none

/-- The system hands out `fd`. -/
def opened (s : Process) (fd : ℕ) (owner : Owner) : Process :=
  { s with os := Function.update s.os fd (some owner) }

/-- `close`, whoever has opened the descriptors. -/
def closeFds (s : Process) (fds : List ℕ) : Process :=
  { s with os := fun fd => if fd ∈ fds then none else s.os fd }

/-- The transport `id` has the fields `t`. -/
def put (s : Process) (id : ℕ) (t : Transport) : Process :=
  { s with transports := Function.update s.transports id (some t) }

def delete (s : Process) (id : ℕ) : Process :=
  { s with transports := Function.update s.transports id none }

/-- `Close` of the transport `id` with the fields `t`. -/
def close (s : Process) (id : ℕ) (t : Transport) : Process :=
  (s.closeFds t.fds).put id { t with sockFd := none, listenFd := none, connected := false }

/-! ### Steps -/

/-- The calls that connect a transport. -/
inductive Call
  | connect
  | accept
  deriving DecidableEq, Repr

/-- `Connect` is called on an unconnected transport, `Accept` needs a listening one. -/
def Call.Ready : Call → Transport → Prop
  | connect, t => t.connected = false
  | accept, t => t.listenFd ≠ none

inductive Action
  | create (id : ℕ)
  | listen (id : ℕ)
  | establish (c : Call) (id : ℕ)
  | createAccepted (id new : ℕ)
  | close (id : ℕ)
  | destroy (id : ℕ)
  | other (fd : ℕ)
  deriving DecidableEq, Repr

/-- The calls, each with every way it can fail. -/
inductive Step : Lts Process Action
  | create {s : Process} {id : ℕ} (type : TransportType) (hnew : s.transports id = none) :
      Step s (.create id) (s.put id ⟨type, none, none, false⟩)
  | listen {s : Process} {id fd : ℕ} {t : Transport} (ht : s.transports id = some t)
      (hfd : s.os fd = none) :
      Step s (.listen id) ((s.opened fd (.transport id)).put id { t with listenFd := some fd })
  | listenFail {s : Process} {id : ℕ} {t : Transport} (ht : s.transports id = some t) :
      Step s (.listen id) (s.put id { t with listenFd := none })
  | establish {s : Process} {c : Call} {id fd : ℕ} {t : Transport}
      (ht : s.transports id = some t) (hready : c.Ready t) (hfd : s.os fd = none) :
      Step s (.establish c id) ((s.opened fd (.transport id)).put id
        { t with sockFd := some fd, connected := true })
  | establishFailTcp {s : Process} {c : Call} {id : ℕ} {t : Transport}
      (ht : s.transports id = some t) (hready : c.Ready t) (htype : t.type = .tcp) :
      Step s (.establish c id) (s.put id { t with sockFd := none })
  -- TransportRdma: InitRdmaResources fails
  | establishFailInit {s : Process} {c : Call} {id : ℕ} {t : Transport}
      (ht : s.transports id = some t) (hready : c.Ready t) (htype : t.type = .rdma) :
      Step s (.establish c id) s
  -- there is no socket, and Close is called
  | establishFailSocket {s : Process} {c : Call} {id : ℕ} {t : Transport}
      (ht : s.transports id = some t) (hready : c.Ready t) (htype : t.type = .rdma) :
      Step s (.establish c id) (s.close id { t with sockFd := none })
  -- the QP is not set up, and Close is called
  | establishFailQp {s : Process} {c : Call} {id fd : ℕ} {t : Transport}
      (ht : s.transports id = some t) (hready : c.Ready t) (htype : t.type = .rdma)
      (hfd : s.os fd = none) :
      Step s (.establish c id)
        ((s.opened fd (.transport id)).close id { t with sockFd := some fd })
  | notListening {s : Process} {id : ℕ} {t : Transport} (ht : s.transports id = some t)
      (hlisten : t.listenFd = none) : Step s (.establish .accept id) s
  | createAcceptedTcp {s : Process} {id new fd : ℕ} {t : Transport}
      (ht : s.transports id = some t) (htype : t.type = .tcp) (hlisten : t.listenFd ≠ none)
      (hnew : s.transports new = none) (hfd : s.os fd = none) :
      Step s (.createAccepted id new)
        ((s.opened fd (.transport new)).put new ⟨.tcp, some fd, none, true⟩)
  | createAcceptedFailTcp {s : Process} {id new : ℕ} {t : Transport}
      (ht : s.transports id = some t) (htype : t.type = .tcp) :
      Step s (.createAccepted id new) s
  | createAcceptedNotListening {s : Process} {id new : ℕ} {t : Transport}
      (ht : s.transports id = some t) (hlisten : t.listenFd = none) :
      Step s (.createAccepted id new) s
  -- the new transport gets tcp_listen_fd
  | createAcceptedRdma {s : Process} {id new fd fd' : ℕ} {t : Transport}
      (ht : s.transports id = some t) (htype : t.type = .rdma) (hlisten : t.listenFd = some fd')
      (hnew : s.transports new = none) (hfd : s.os fd = none) :
      Step s (.createAccepted id new)
        ((s.opened fd (.transport new)).put new ⟨.rdma, some fd, some fd', true⟩)
  -- Accept fails, and the new transport is destroyed
  | createAcceptedFailSocket {s : Process} {id new fd' : ℕ} {t : Transport}
      (ht : s.transports id = some t) (htype : t.type = .rdma) (hlisten : t.listenFd = some fd')
      (hnew : s.transports new = none) :
      Step s (.createAccepted id new)
        ((s.close new ⟨.rdma, none, some fd', false⟩).delete new)
  | createAcceptedFailQp {s : Process} {id new fd fd' : ℕ} {t : Transport}
      (ht : s.transports id = some t) (htype : t.type = .rdma) (hlisten : t.listenFd = some fd')
      (hnew : s.transports new = none) (hfd : s.os fd = none) :
      Step s (.createAccepted id new)
        (((s.opened fd (.transport new)).close new ⟨.rdma, some fd, some fd', false⟩).delete new)
  | close {s : Process} {id : ℕ} {t : Transport} (ht : s.transports id = some t) :
      Step s (.close id) (s.close id t)
  | destroy {s : Process} {id : ℕ} {t : Transport} (ht : s.transports id = some t) :
      Step s (.destroy id) ((s.close id t).delete id)
  -- the rest of the process
  | otherOpen {s : Process} {fd : ℕ} (hfd : s.os fd = none) :
      Step s (.other fd) (s.opened fd .other)
  | otherClose {s : Process} {fd : ℕ} (hfd : s.os fd = some .other) :
      Step s (.other fd) (s.closeFds [fd])

/-! ### One owner -/

/-- A transport records no descriptor twice and only ones that are open and that it
has opened.  So two transports never record the same one, and whatever `Close` closes
is the transport's own. -/
def OneOwner (s : Process) : Prop :=
  ∀ id t, s.transports id = some t → t.fds.Nodup ∧ ∀ fd ∈ t.fds, s.os fd = some (.transport id)

/-- No `CreateAcceptedConnection` on a listening RDMA transport. -/
def SharesNoListener (s : Process) : Action → Prop
  | .createAccepted id _ => ∀ t, s.transports id = some t → t.type = .rdma → t.listenFd = none
  | _ => True

variable {s s' : Process} {id fd : ℕ} {t : Transport} {a : Action}

/-- No other transport records these descriptors. -/
def Exclusive (s : Process) (id : ℕ) (fds : List ℕ) : Prop :=
  ∀ fd ∈ fds, ∀ id', id' ≠ id → s.os fd ≠ some (.transport id')

/-- A transport that is replaced does not concern the others. -/
theorem OneOwner.put (h : s.OneOwner) (hnodup : t.fds.Nodup)
    (howned : ∀ fd ∈ t.fds, s.os fd = some (.transport id)) : (s.put id t).OneOwner := by
  intro id' t' ht'
  rcases eq_or_ne id' id with rfl | hne
  · have ht' : Function.update s.transports id' (some t) id' = some t' := ht'
    rw [Function.update_self] at ht'
    cases ht'
    exact ⟨hnodup, howned⟩
  · have ht' : Function.update s.transports id (some t) id' = some t' := ht'
    rw [Function.update_of_ne hne] at ht'
    exact h id' t' ht'

theorem OneOwner.delete (h : s.OneOwner) (id : ℕ) : (s.delete id).OneOwner := by
  intro id' t' ht'
  have ht' : Function.update s.transports id none id' = some t' := ht'
  rcases eq_or_ne id' id with rfl | hne
  · rw [Function.update_self] at ht'
    cases ht'
  · rw [Function.update_of_ne hne] at ht'
    exact h id' t' ht'

/-- A new descriptor is not recorded anywhere. -/
theorem OneOwner.opened (h : s.OneOwner) (hfd : s.os fd = none) (owner : Owner) :
    (s.opened fd owner).OneOwner := by
  intro id t ht
  obtain ⟨hnodup, howned⟩ := h id t ht
  refine ⟨hnodup, fun fd' hfd' => ?_⟩
  have hne : fd' ≠ fd := by
    rintro rfl
    exact nomatch hfd.symm.trans (howned fd' hfd')
  show Function.update s.os fd (some owner) fd' = _
  rw [Function.update_of_ne hne]
  exact howned fd' hfd'

/-- `Close` of descriptors that are one's own. -/
theorem OneOwner.close (h : s.OneOwner) (hexcl : s.Exclusive id t.fds) :
    (s.close id t).OneOwner := by
  intro id' t' ht'
  have ht' : Function.update s.transports id _ id' = some t' := ht'
  rcases eq_or_ne id' id with rfl | hne
  · -- nothing is recorded any more
    rw [Function.update_self] at ht'
    cases ht'
    exact ⟨List.nodup_nil, fun fd hfd => absurd hfd List.not_mem_nil⟩
  · rw [Function.update_of_ne hne] at ht'
    obtain ⟨hnodup, howned⟩ := h id' t' ht'
    refine ⟨hnodup, fun fd hfd => ?_⟩
    show (if fd ∈ t.fds then none else s.os fd) = _
    rw [if_neg fun hmem => hexcl fd hmem id' hne (howned fd hfd)]
    exact howned fd hfd

theorem mem_fds : fd ∈ t.fds ↔ t.sockFd = some fd ∨ t.listenFd = some fd := by
  rw [Transport.fds, List.mem_append, Option.mem_toList, Option.mem_toList]

theorem OneOwner.exclusive (h : s.OneOwner) (ht : s.transports id = some t) {fds : List ℕ}
    (hfds : ∀ fd ∈ fds, fd ∈ t.fds) : s.Exclusive id fds := by
  intro fd hfd id' hne hos
  rw [(h id t ht).2 fd (hfds fd hfd)] at hos
  cases hos
  exact hne rfl

theorem os_opened (s : Process) (fd : ℕ) (owner : Owner) : (s.opened fd owner).os fd = some owner :=
  Function.update_self ..

theorem os_opened_of_ne (s : Process) {fd fd' : ℕ} (hne : fd' ≠ fd) (owner : Owner) :
    (s.opened fd owner).os fd' = s.os fd' :=
  Function.update_of_ne hne ..

/-- Whoever records a descriptor that is none of its own. -/
theorem not_oneOwner (ht : s.transports id = some t) (hfd : fd ∈ t.fds)
    (hos : s.os fd ≠ some (.transport id)) : ¬ s.OneOwner :=
  fun h => hos ((h id t ht).2 fd hfd)

section Open

variable (h : s.OneOwner) (ht : s.transports id = some t) (hfd : s.os fd = none)
include h ht hfd

theorem OneOwner.ne_of_mem {fd' : ℕ} (hmem : fd' ∈ t.fds) : fd' ≠ fd := by
  rintro rfl
  exact nomatch hfd.symm.trans ((h id t ht).2 fd' hmem)

/-- After `open` a transport owns its old descriptors and the new one. -/
theorem OneOwner.owned_opened {fd' : ℕ} (hmem : fd' = fd ∨ fd' ∈ t.fds) :
    (s.opened fd (.transport id)).os fd' = some (.transport id) := by
  rcases hmem with rfl | hmem
  · exact os_opened ..
  · rw [os_opened_of_ne s (h.ne_of_mem ht hfd hmem)]
    exact (h id t ht).2 fd' hmem

theorem OneOwner.listen :
    ((s.opened fd (.transport id)).put id { t with listenFd := some fd }).OneOwner := by
  apply (h.opened hfd _).put
  · show (t.sockFd.toList ++ [fd]).Nodup
    refine List.nodup_append.mpr ⟨Option.toList_nodup _, List.nodup_singleton fd, ?_⟩
    intro fd' hfd' fd'' hfd''
    rw [List.mem_singleton.mp hfd'']
    exact h.ne_of_mem ht hfd (mem_fds.mpr (.inl (Option.mem_toList.mp hfd')))
  · intro fd' hfd'
    apply h.owned_opened ht hfd
    rcases mem_fds.mp hfd' with hsock | hlisten
    · exact .inr (mem_fds.mpr (.inl hsock))
    · exact .inl (Option.some.inj hlisten).symm

theorem OneOwner.establish : ((s.opened fd (.transport id)).put id
    { t with sockFd := some fd, connected := true }).OneOwner := by
  apply (h.opened hfd _).put
  · show ([fd] ++ t.listenFd.toList).Nodup
    refine List.nodup_append.mpr ⟨List.nodup_singleton fd, Option.toList_nodup _, ?_⟩
    intro fd' hfd' fd'' hfd''
    rw [List.mem_singleton.mp hfd']
    exact (h.ne_of_mem ht hfd (mem_fds.mpr (.inr (Option.mem_toList.mp hfd'')))).symm
  · intro fd' hfd'
    apply h.owned_opened ht hfd
    rcases mem_fds.mp hfd' with hsock | hlisten
    · exact .inl (Option.some.inj hsock).symm
    · exact .inr (mem_fds.mpr (.inr hlisten))

/-- The QP is not set up: the new socket is closed, and the listening one too. -/
theorem OneOwner.closeOpened :
    ((s.opened fd (.transport id)).close id { t with sockFd := some fd }).OneOwner := by
  apply (h.opened hfd _).close
  intro fd' hfd' id' hne hos
  have hmem : fd' = fd ∨ fd' ∈ t.fds := by
    rcases mem_fds.mp hfd' with hsock | hlisten
    · exact .inl (Option.some.inj hsock).symm
    · exact .inr (mem_fds.mpr (.inr hlisten))
  have howned := h.owned_opened ht hfd hmem
  rw [howned] at hos
  cases hos
  exact hne rfl

end Open

/-- A record is dropped without a `close`. -/
theorem OneOwner.drop (h : s.OneOwner) (ht : s.transports id = some t) {t' : Transport}
    (hsub : t'.fds.Sublist t.fds) : (s.put id t').OneOwner := by
  obtain ⟨hnodup, howned⟩ := h id t ht
  exact h.put (hnodup.sublist hsub) fun fd hfd => howned fd (hsub.subset hfd)

/-- The rest of the process closes what it has opened. -/
theorem OneOwner.closeOther (h : s.OneOwner) (hfd : s.os fd = some .other) :
    (s.closeFds [fd]).OneOwner := by
  intro id t ht
  obtain ⟨hnodup, howned⟩ := h id t ht
  refine ⟨hnodup, fun fd' hfd' => ?_⟩
  show (if fd' ∈ [fd] then none else s.os fd') = _
  rw [if_neg, howned fd' hfd']
  intro hmem
  have hother := howned fd' hfd'
  rw [List.mem_singleton.mp hmem, hfd] at hother
  cases hother

section Share

variable {new fd' : ℕ} (ht : s.transports id = some t) (hlisten : t.listenFd = some fd')
include ht hlisten

theorem not_sharesNoListener (htype : t.type = .rdma) :
    ¬ s.SharesNoListener (.createAccepted id new) := by
  intro hshare
  exact nomatch hlisten.symm.trans (hshare t ht htype)

variable (hnew : s.transports new = none)
include hnew

omit hlisten in
theorem ne_new : id ≠ new := by
  rintro rfl
  exact nomatch ht.symm.trans hnew

/-- The new transport records a socket that the listening one has opened. -/
theorem OneOwner.not_createAccepted (h : s.OneOwner) (hfd : s.os fd = none) :
    ¬ ((s.opened fd (.transport new)).put new ⟨.rdma, some fd, some fd', true⟩).OneOwner := by
  have hmem : fd' ∈ t.fds := mem_fds.mpr (.inr hlisten)
  refine not_oneOwner (Function.update_self ..) (mem_fds.mpr (.inr rfl)) ?_
  show (s.opened fd (.transport new)).os fd' ≠ _
  rw [os_opened_of_ne s (h.ne_of_mem ht hfd hmem), (h id t ht).2 fd' hmem]
  intro hid
  cases hid
  exact ne_new ht hnew rfl

/-- The listening transport records a socket that the new one has closed. -/
theorem not_oneOwner_closed (t' : Transport) (hfd' : fd' ∈ t'.fds) :
    ¬ ((s.close new t').delete new).OneOwner := by
  have hid : ((s.close new t').delete new).transports id = some t := by
    show Function.update (Function.update s.transports new _) new none id = some t
    rw [Function.update_of_ne (ne_new ht hnew), Function.update_of_ne (ne_new ht hnew), ht]
  refine not_oneOwner hid (mem_fds.mpr (.inr hlisten)) ?_
  show (if fd' ∈ t'.fds then none else s.os fd') ≠ _
  rw [if_pos hfd']
  exact nofun

end Share

/-- **Step lemma.**  A step keeps the owners apart if and only if it shares no
listening socket. -/
theorem OneOwner.step_iff (h : s.OneOwner) (hstep : Step s a s') :
    s'.OneOwner ↔ s.SharesNoListener a := by
  cases hstep with
  | create type hnew =>
      exact iff_of_true (h.put List.nodup_nil fun fd hfd => absurd hfd List.not_mem_nil) trivial
  | listen ht hfd => exact iff_of_true (h.listen ht hfd) trivial
  | @listenFail _ _ t ht =>
      refine iff_of_true (h.drop ht ?_) trivial
      show (t.sockFd.toList ++ []).Sublist (t.sockFd.toList ++ t.listenFd.toList)
      exact (List.nil_sublist _).append_left _
  | establish ht hready hfd => exact iff_of_true (h.establish ht hfd) trivial
  | establishFailTcp ht hready htype =>
      exact iff_of_true (h.drop ht (List.sublist_append_right _ _)) trivial
  | establishFailInit ht hready htype => exact iff_of_true h trivial
  | establishFailSocket ht hready htype =>
      refine iff_of_true (h.close (h.exclusive ht fun fd hfd => ?_)) trivial
      exact List.mem_append_right _ hfd
  | establishFailQp ht hready htype hfd => exact iff_of_true (h.closeOpened ht hfd) trivial
  | notListening ht hlisten => exact iff_of_true h trivial
  | @createAcceptedTcp _ id new fd t ht htype hlisten hnew hfd =>
      refine iff_of_true ((h.opened hfd _).put (List.nodup_singleton fd) ?_) ?_
      · intro fd' hfd'
        rw [List.mem_singleton.mp hfd']
        exact os_opened ..
      · intro t' ht' htype'
        rw [ht] at ht'
        cases ht'
        exact nomatch htype.symm.trans htype'
  | @createAcceptedFailTcp _ id new t ht htype =>
      refine iff_of_true h fun t' ht' htype' => ?_
      rw [ht] at ht'
      cases ht'
      exact nomatch htype.symm.trans htype'
  | @createAcceptedNotListening _ id new t ht hlisten =>
      refine iff_of_true h fun t' ht' _ => ?_
      rw [ht] at ht'
      cases ht'
      exact hlisten
  | createAcceptedRdma ht htype hlisten hnew hfd =>
      exact iff_of_false (h.not_createAccepted ht hlisten hnew hfd)
        (not_sharesNoListener ht hlisten htype)
  | createAcceptedFailSocket ht htype hlisten hnew =>
      refine iff_of_false (not_oneOwner_closed ht hlisten hnew _ ?_)
        (not_sharesNoListener ht hlisten htype)
      exact List.mem_singleton_self _
  | createAcceptedFailQp ht htype hlisten hnew hfd =>
      refine iff_of_false (@not_oneOwner_closed (s.opened _ _) _ _ _ _ ht hlisten hnew _ ?_)
        (not_sharesNoListener ht hlisten htype)
      exact List.mem_cons_of_mem _ (List.mem_singleton_self _)
  | close ht => exact iff_of_true (h.close (h.exclusive ht fun _ => id)) trivial
  | destroy ht => exact iff_of_true ((h.close (h.exclusive ht fun _ => id)).delete _) trivial
  | otherOpen hfd => exact iff_of_true (h.opened hfd _) trivial
  | otherClose hfd => exact iff_of_true (h.closeOther hfd) trivial

/-- **Every descriptor has one owner in every state of a run if and only if** the run
has no `CreateAcceptedConnection` on a listening RDMA transport. -/
theorem one_owner_iff (l : List Action) (t : Process) :
    (Lts.Run Step (fun s _ => s.OneOwner) init l t ∧ t.OneOwner)
      ↔ Lts.Run Step SharesNoListener init l t := by
  refine Lts.Run.keeps_iff (T := Step) (I := fun _ => True) (J := OneOwner)
    (fun _ _ _ => trivial) (fun _ h hstep => h.step_iff hstep) trivial ?_
  intro id t ht
  cases ht

/-- Transport 0 listens on descriptor 3, and transport 1 is accepted.  Both record
3.  When transport 1 is destroyed and 3 is given to another part of the process,
transport 0 still records it and closes it. -/
theorem accepted_closes_listener :
    ∃ s₁ s₂ s₃ : Process,
      Lts.Run Step (fun _ _ => True) init [.create 0, .listen 0, .createAccepted 0 1] s₁ ∧
      s₁.transports 0 = some ⟨.rdma, none, some 3, false⟩ ∧
      s₁.transports 1 = some ⟨.rdma, some 4, some 3, true⟩ ∧ ¬ s₁.OneOwner ∧
      Lts.Run Step (fun _ _ => True) s₁ [.destroy 1, .other 3] s₂ ∧
      s₂.transports 0 = some ⟨.rdma, none, some 3, false⟩ ∧ s₂.os 3 = some .other ∧
      Step s₂ (.close 0) s₃ ∧ s₃.os 3 = none := by
  refine ⟨_, _, _, .cons (.create .rdma rfl) trivial <|
    .cons (@Step.listen _ _ 3 _ rfl rfl) trivial <|
    .cons (@Step.createAcceptedRdma _ _ _ 4 _ _ rfl rfl rfl rfl rfl) trivial (.nil _),
    rfl, rfl, ?_,
    .cons (.destroy rfl) trivial <| .cons (.otherOpen (by decide)) trivial (.nil _),
    rfl, rfl, .close rfl, by decide⟩
  intro h
  exact absurd ((h 1 _ rfl).2 3 (by decide)) (by decide)

end Process

end MiniCcl.Descriptors
