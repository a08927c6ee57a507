/-
MiniCcl/TransportTcp.lean

`Send` and `Recv` of `transport_tcp.cpp`.

There is no framing: a `Recv` takes as many bytes as its caller asks for, whoever sent
them and in whatever pieces.  The concatenation of what has been received is still that
of what has been sent, so the collectives need only agree on the total.
-/
import MiniCcl.Sockets
import Mathlib.Data.Int.Notation
import Mathlib.Data.List.Infix

namespace MiniCcl

open ByteStream Sockets

structure TransportTCP where
  connected : Bool
  sockfd : ℤ
  deriving DecidableEq, Repr

namespace TransportTCP

/-! ### The calls -/

def sendRaw (data : List UInt8) : Sending := sendLoop data 0

/-- The buffer is the memory that the caller passes, with what it holds. -/
def recvRaw (buffer : List UInt8) : Receiving := recvLoop buffer.length 0 buffer

def send (t : TransportTCP) (data : List UInt8) : Sending :=
  if !t.connected || t.sockfd < 0 then .ret false else sendRaw data

def recv (t : TransportTCP) (buffer : List UInt8) : Receiving :=
  if !t.connected || t.sockfd < 0 then .ret (false, buffer) else recvRaw buffer

variable {t u : TransportTCP} {data buffer bs : List UInt8}

/-- `Send` writes the data from its start on, and all of it if it returns true. -/
theorem send_moves {p : Sending} (h : Interaction.Moves Sends (t.send data) bs p) :
    bs <+: data ∧ (p = .ret true → bs = data) := by
  unfold send at h
  split at h
  case isTrue =>
    obtain ⟨rfl, rfl⟩ := h.of_ret
    exact ⟨List.nil_prefix, fun hret => by simp at hret⟩
  case isFalse =>
    have hstate := SendState.of_moves h
    refine ⟨hstate.isPrefix, ?_⟩
    rintro rfl
    exact hstate.eq_of_true

/-- What `Recv` has in its buffer when it returns. -/
theorem recv_returned {r : Bool × List UInt8}
    (h : Interaction.Moves Recvs (t.recv buffer) bs (.ret r)) :
    r.2 = bs ++ buffer.drop bs.length ∧ bs.length ≤ buffer.length
    ∧ (r.1 = true → bs.length = buffer.length) := by
  unfold recv at h
  split at h
  case isTrue =>
    obtain ⟨rfl, hr⟩ := h.of_ret
    obtain rfl := Interaction.ret.inj hr
    exact ⟨rfl, Nat.zero_le _, fun hok => by simp at hok⟩
  case isFalse =>
    obtain ⟨hbuffer, hle, hfull⟩ := (RecvState.of_moves h).of_ret
    exact ⟨hbuffer, hle, hfull.mp⟩

/-- Where `Recv` calls `recv`, its buffer is not full yet. -/
theorem recv_asks {q : ℕ} {k : Option (List UInt8) → Receiving}
    (h : Interaction.Moves Recvs (t.recv buffer) bs (.ask q k)) :
    RecvState buffer bs (.ask q k) := by
  unfold recv at h
  split at h
  case isTrue => exact absurd h.of_ret.2 (by simp)
  case isFalse => exact RecvState.of_moves h

/-! ### Calls on a connection -/

/-- One end calls `Send` again and again, and the other `Recv`. -/
abbrev Connection := Link (List UInt8) (Option ℕ) Bool ℕ (Option (List UInt8))
  (Bool × List UInt8) UInt8

namespace Connection

def start (t u : TransportTCP) (sends buffers : ℕ → List UInt8) : Connection :=
  Link.start (fun k => t.send (sends k)) (fun k => u.recv (buffers k))

def Step (t u : TransportTCP) (sends buffers : ℕ → List UInt8) : Lts Connection Link.Party :=
  Link.Step Sends Recvs (fun k => t.send (sends k)) (fun k => u.recv (buffers k))

abbrev Valid (t u : TransportTCP) (sends buffers : ℕ → List UInt8) (s : Connection) : Prop :=
  Link.Valid Sends Recvs (fun k => t.send (sends k)) (fun k => u.recv (buffers k)) s

/-- The first `n` buffers one after the other. -/
def concat (buffers : ℕ → List UInt8) (n : ℕ) : List UInt8 :=
  ((List.range n).map buffers).flatten

variable {sends buffers : ℕ → List UInt8} {s : Connection}

theorem Valid.sent (h : Valid t u sends buffers s) (hsent : ∀ x ∈ s.sender.done, x.1 = true) :
    s.sender.returned = concat sends s.sender.done.length := by
  apply Session.returned_eq
  intro k x hk
  have hmoves : (t.send (sends k)).Moves Sends x.2 (.ret x.1) := h.sender.done hk
  have htrue : x.1 = true := hsent x (List.mem_of_getElem? hk)
  exact (send_moves hmoves).2 (htrue ▸ rfl)

/-- A `Recv` that has returned true holds the bytes that it has moved. -/
theorem Valid.received (h : Valid t u sends buffers s)
    (hrecv : ∀ x ∈ s.receiver.done, x.1.1 = true) :
    s.receiver.done.map (fun x => x.1.2) = s.receiver.done.map Prod.snd := by
  apply List.map_congr_left
  intro x hx
  obtain ⟨k, hk⟩ := List.mem_iff_getElem?.mp hx
  have hmoves : (u.recv (buffers k)).Moves Recvs x.2 (.ret x.1) := h.receiver.done hk
  obtain ⟨hbuffer, -, hfull⟩ := recv_returned hmoves
  rw [List.drop_of_length_le (Nat.le_of_eq (hfull (hrecv x hx)).symm), List.append_nil]
    at hbuffer
  exact hbuffer

/-- The calls that have returned true have moved as many bytes as their buffers hold. -/
theorem Valid.length_returned (h : Valid t u sends buffers s)
    (hrecv : ∀ x ∈ s.receiver.done, x.1.1 = true) :
    s.receiver.returned.length = (concat buffers s.receiver.done.length).length := by
  have hmap : s.receiver.done.map (fun x => x.2.length)
      = (List.range s.receiver.done.length).map fun k => (buffers k).length := by
    apply List.ext_getElem (by simp)
    intro k hk _
    have hlt : k < s.receiver.done.length := by simpa using hk
    have hmoves : (u.recv (buffers k)).Moves Recvs s.receiver.done[k].2
        (.ret s.receiver.done[k].1) := h.receiver.done (List.getElem?_eq_getElem hlt)
    simpa using (recv_returned hmoves).2.2 (hrecv _ (List.getElem_mem hlt))
  rw [Session.returned, concat, List.length_flatten, List.length_flatten, List.map_map,
    List.map_map]
  exact congrArg List.sum hmap

/-- **The received buffers hold the sent bytes in order, wherever the stream is cut, when
all calls return true and the totals agree.  A `Recv` that meets an error or the end of
the stream before it has its bytes returns false, with a part of what is left of the
stream at the start of its buffer.** -/
theorem lossless (hs : (Step t u sends buffers).Reaches (start t u sends buffers) s) :
    ((∀ x ∈ s.sender.done, x.1 = true) → (∀ x ∈ s.receiver.done, x.1.1 = true) →
      (concat sends s.sender.done.length).length
        = (concat buffers s.receiver.done.length).length →
      (s.receiver.done.map fun x => x.1.2).flatten = concat sends s.sender.done.length)
    ∧ (∀ q next result bs, s.receiver.current = .ask q next → Recvs q result bs → Ended result →
      s.receiver.moved.length < (buffers s.receiver.done.length).length
      ∧ s.receiver.moved <+: s.sender.total.drop s.receiver.returned.length
      ∧ next result = .ret (false, s.receiver.moved
        ++ (buffers s.receiver.done.length).drop s.receiver.moved.length))
    ∧ ∀ k r bs, s.receiver.done[k]? = some (r, bs) →
      r.2 = bs ++ (buffers k).drop bs.length ∧ bs.length ≤ (buffers k).length
      ∧ (r.1 = true → bs.length = (buffers k).length)
      ∧ bs <+: s.sender.total.drop ((s.receiver.done.take k).map Prod.snd).flatten.length := by
  have h : Valid t u sends buffers s := Link.valid_of_reaches hs
  refine ⟨?_, ?_, ?_⟩
  · intro hsent hrecv htotals
    have hlength := (h.length_returned hrecv).trans htotals.symm
    have hstream := h.stream
    rw [Session.total, Session.total, h.sent hsent, List.append_assoc] at hstream
    have heq := (List.append_inj hstream hlength.symm).1
    rw [h.received hrecv]
    exact heq.symm
  · intro q next result bs hcurrent hresult hended
    have hmoves := h.receiver.current
    rw [hcurrent] at hmoves
    obtain ⟨hlt, -, hnext⟩ := (recv_asks hmoves).of_ask
    refine ⟨hlt, ?_, ((hnext hresult).2 hended).2⟩
    rw [h.stream, Session.total, List.append_assoc, List.drop_left]
    exact List.prefix_append ..
  · intro k r bs hk
    obtain ⟨hbuffer, hle, hfull⟩ := recv_returned (h.receiver.done hk)
    refine ⟨hbuffer, hle, hfull, (Session.prefix_drop hk).trans ?_⟩
    exact (Link.Valid.receiver_prefix h).drop _

/-- Two bytes are sent, and then three at a time. -/
def unevenSends : ℕ → List UInt8
  | 0 => [1, 2]
  | _ => [3, 4, 5]

/-- Three bytes are asked for, and then two at a time. -/
def unevenBuffers : ℕ → List UInt8
  | 0 => [0, 0, 0]
  | _ => [0, 0]

/-- The first `Recv` gets two of its bytes from one `Send` and one from the other. -/
theorem exists_run_uneven : ∃ s t : Connection,
    (Step ⟨true, 5⟩ ⟨true, 6⟩ unevenSends unevenBuffers).Reaches
        (start ⟨true, 5⟩ ⟨true, 6⟩ unevenSends unevenBuffers) s
      ∧ s.receiver = ⟨[], [1, 2], recvLoop 3 2 [1, 2, 0]⟩
      ∧ (Step ⟨true, 5⟩ ⟨true, 6⟩ unevenSends unevenBuffers).Reaches s t
      ∧ t.sender = ⟨[(true, [1, 2]), (true, [3, 4, 5])], [], sendLoop [3, 4, 5] 0⟩
      ∧ t.receiver = ⟨[((true, [1, 2, 3]), [1, 2, 3]), ((true, [4, 5]), [4, 5])], [],
          recvLoop 2 0 [0, 0]⟩ := by
  have hrecv : Interaction.Moves Recvs (recvLoop 3 0 [0, 0, 0]) [1, 2] (recvLoop 3 2 [1, 2, 0]) :=
    @RecvState.recvLoop_part [0, 0, 0] [] [1, 2] (by decide) (by decide)
  have hrecv' : Interaction.Moves Recvs (recvLoop 3 2 [1, 2, 0]) [3] (.ret (true, [1, 2, 3])) :=
    @RecvState.recvLoop_length [0, 0, 0] [1, 2, 3] rfl ▸
      @RecvState.recvLoop_part [0, 0, 0] [1, 2] [3] (by decide) (by decide)
  have hsend : Interaction.Moves Sends (sendLoop [3, 4, 5] 0) [3] (sendLoop [3, 4, 5] 1) :=
    @sendLoop_part [3, 4, 5] 0 1 (by decide) (by decide)
  have hsend' : Interaction.Moves Sends (sendLoop [3, 4, 5] 1) [4, 5] (.ret true) :=
    sendLoop_length [3, 4, 5] ▸ @sendLoop_part [3, 4, 5] 1 2 (by decide) (by decide)
  exact ⟨_, _, Relation.ReflTransGen.trans (Link.reaches_sender_next rfl (sendLoop_all [1, 2]))
    (Link.reaches_receiver rfl hrecv rfl), rfl,
    Relation.ReflTransGen.trans (Link.reaches_sender_next rfl (hsend.trans hsend'))
      (Relation.ReflTransGen.trans (Link.reaches_receiver_next rfl hrecv' rfl)
        (Link.reaches_receiver_next rfl (@RecvState.recvLoop_all [0, 0] [4, 5] rfl) rfl)), rfl,
    rfl⟩

/-- If the stream ended after the first `Send`, the first `Recv` would fail. -/
theorem lossless_five_bytes : ∃ s t : Connection,
    (Step ⟨true, 5⟩ ⟨true, 6⟩ unevenSends unevenBuffers).Reaches
        (start ⟨true, 5⟩ ⟨true, 6⟩ unevenSends unevenBuffers) s
      ∧ (∃ next, s.receiver.current = .ask 1 next ∧ next none = .ret (false, [1, 2, 0]))
      ∧ (Step ⟨true, 5⟩ ⟨true, 6⟩ unevenSends unevenBuffers).Reaches s t
      ∧ t.sender.done.length = 2 ∧ t.receiver.done.length = 2
      ∧ (t.receiver.done.map fun x => x.1.2).flatten = [1, 2, 3, 4, 5] := by
  obtain ⟨s, t, hs, hreceiver, ht, hsender', hreceiver'⟩ := exists_run_uneven
  refine ⟨s, t, hs, ?_, ht, by rw [hsender']; rfl, by rw [hreceiver']; rfl, ?_⟩
  · obtain ⟨next, hnext⟩ : ∃ next, recvLoop 3 2 [1, 2, 0] = .ask 1 next := by
      rw [recvLoop, if_pos (by decide)]
      exact ⟨_, rfl⟩
    have hcurrent : s.receiver.current = .ask 1 next := by rw [hreceiver, ← hnext]
    obtain ⟨-, hended, -⟩ := lossless hs
    obtain ⟨-, -, hfalse⟩ := hended 1 next none [] hcurrent rfl (.inl rfl)
    rw [hreceiver] at hfalse
    exact ⟨next, hcurrent, hfalse⟩
  · obtain ⟨hall, -⟩ := lossless (hs.trans ht)
    have hconcat := hall (by simp [hsender']) (by simp [hreceiver'])
      (by rw [hsender', hreceiver']; rfl)
    rw [hconcat, hsender']
    rfl

end Connection

end TransportTCP

end MiniCcl
