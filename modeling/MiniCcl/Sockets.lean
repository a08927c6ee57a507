/-
MiniCcl/Sockets.lean

`send` and `recv` on a connected stream socket, and the loops of `utils.cpp` and
`transport_tcp.cpp` around them.

Each of the two may move less than it is asked to.  Both files have the same loops: one
goes on from the bytes that have been moved until there are enough of them, and returns
false as soon as a call fails or moves nothing.
-/
import MiniCcl.ByteStream

namespace MiniCcl.Sockets

open ByteStream

/-! ### The calls of the system -/

/-- `send(sockfd, data, size, 0)` has returned `result`, with `none` for a negative one. -/
def Sends (data : List UInt8) : Option ℕ → List UInt8 → Prop
  | none, bs => bs = []
  | some n, bs => n ≤ data.length ∧ bs = data.take n

/-- `recv(sockfd, buffer, size, flags)` has returned the length of `bytes`, which it has
written, with `none` for a negative result.  At the end of the stream there are none. -/
def Recvs (size : ℕ) : Option (List UInt8) → List UInt8 → Prop
  | none, bs => bs = []
  | some bytes, bs => bytes.length ≤ size ∧ bs = bytes

/-- The results of `recv` for an error and for the end of the stream. -/
def Ended (result : Option (List UInt8)) : Prop := result = none ∨ result = some []

abbrev Sending := Interaction (List UInt8) (Option ℕ) Bool

/-- A call that returns with a buffer. -/
abbrev Receiving := Interaction ℕ (Option (List UInt8)) (Bool × List UInt8)

/-! ### The loops -/

/-- Send what is left after the first `total` bytes. -/
def sendLoop (data : List UInt8) (total : ℕ) : Sending :=
  if total < data.length then
    .ask (data.drop total) fun
      | none => .ret false
      | some 0 => .ret false
      | some (n + 1) => sendLoop data (total + (n + 1))
  else .ret true
termination_by data.length - total

/-- The buffer after `bytes` have been written at the offset. -/
def overwrite (buffer : List UInt8) (offset : ℕ) (bytes : List UInt8) : List UInt8 :=
  buffer.take offset ++ bytes ++ buffer.drop (offset + bytes.length)

/-- Receive `size` bytes, of which the buffer has `total`. -/
def recvLoop (size total : ℕ) (buffer : List UInt8) : Receiving :=
  if total < size then
    .ask (size - total) fun
      | none => .ret (false, buffer)
      | some [] => .ret (false, buffer)
      | some (b :: bs) =>
          recvLoop size (total + (b :: bs).length) (overwrite buffer total (b :: bs))
  else .ret (true, buffer)
termination_by size - total
decreasing_by rw [List.length_cons]; omega

/-! ### What the loops have moved -/

/-- The loop has sent `bs`, and `p` is what it does next. -/
inductive SendState (data : List UInt8) : List UInt8 → Sending → Prop
  | loop {total : ℕ} (h : total ≤ data.length) :
      SendState data (data.take total) (sendLoop data total)
  | failed {total : ℕ} (h : total < data.length) :
      SendState data (data.take total) (.ret false)

namespace SendState

variable {data bs : List UInt8} {p : Sending}

theorem step {q : List UInt8} {k : Option ℕ → Sending} {a : Option ℕ} {bs' : List UInt8}
    (h : SendState data bs (.ask q k)) (ha : Sends q a bs') :
    SendState data (bs ++ bs') (k a) := by
  generalize hp : Interaction.ask q k = p at h
  cases h with
  | failed h => cases hp
  | @loop total h =>
      rw [sendLoop] at hp
      split at hp
      case isFalse => cases hp
      case isTrue hlt =>
        obtain ⟨rfl, rfl⟩ := Interaction.ask.inj hp
        match a, ha with
        | none, hnone =>
            rw [show bs' = [] from hnone, List.append_nil]
            exact .failed hlt
        | some 0, hzero =>
            rw [show bs' = [] from hzero.2, List.append_nil]
            exact .failed hlt
        | some (n + 1), ⟨hle, hbs⟩ =>
            rw [List.length_drop] at hle
            rw [hbs, ← List.take_add]
            exact .loop (by omega)

theorem of_moves (h : Interaction.Moves Sends (sendLoop data 0) bs p) : SendState data bs p :=
  h.invariant (.loop (Nat.zero_le _)) step

theorem isPrefix (h : SendState data bs p) : bs <+: data := by
  cases h with
  | loop _ => exact List.take_prefix ..
  | failed _ => exact List.take_prefix ..

/-- When the loop returns true, it has sent everything. -/
theorem eq_of_true (h : SendState data bs (.ret true)) : bs = data := by
  generalize hp : Interaction.ret true = p at h
  cases h with
  | failed h => cases hp
  | loop h =>
      rw [sendLoop] at hp
      split at hp
      case isTrue => cases hp
      case isFalse hge => exact List.take_of_length_le (Nat.not_lt.mp hge)

end SendState

/-- `send` can take any part of what is left. -/
theorem sendLoop_part {data : List UInt8} {total n : ℕ} (hn : 0 < n)
    (h : total + n ≤ data.length) :
    Interaction.Moves Sends (sendLoop data total) ((data.drop total).take n)
      (sendLoop data (total + n)) := by
  obtain ⟨n, rfl⟩ := Nat.exists_eq_succ_of_ne_zero (Nat.ne_of_gt hn)
  have hsends : Sends (data.drop total) (some (n + 1)) ((data.drop total).take (n + 1)) :=
    ⟨by rw [List.length_drop]; omega, rfl⟩
  rw [sendLoop, if_pos (by omega)]
  exact .answer hsends rfl

theorem sendLoop_length (data : List UInt8) : sendLoop data data.length = .ret true := by
  rw [sendLoop, if_neg (Nat.lt_irrefl _)]

/-- If one call of `send` takes everything, the loop returns true. -/
theorem sendLoop_all (data : List UInt8) :
    Interaction.Moves Sends (sendLoop data 0) data (.ret true) := by
  rw [← sendLoop_length data]
  rcases Nat.eq_zero_or_pos data.length with hnil | hpos
  · obtain rfl := List.length_eq_zero_iff.mp hnil
    exact .start
  · have hpart := sendLoop_part hpos (Nat.le_of_eq (Nat.zero_add data.length))
    rwa [List.drop_zero, List.take_length, Nat.zero_add] at hpart

/-- The loop has received `bs` into a buffer that was `buffer`. -/
inductive RecvState (buffer : List UInt8) : List UInt8 → Receiving → Prop
  | loop {bs : List UInt8} (h : bs.length ≤ buffer.length) :
      RecvState buffer bs (recvLoop buffer.length bs.length (bs ++ buffer.drop bs.length))
  | failed {bs : List UInt8} (h : bs.length < buffer.length) :
      RecvState buffer bs (.ret (false, bs ++ buffer.drop bs.length))

namespace RecvState

variable {buffer bs : List UInt8} {p : Receiving}

theorem overwrite_eq (bytes : List UInt8) :
    overwrite (bs ++ buffer.drop bs.length) bs.length bytes
      = (bs ++ bytes) ++ buffer.drop (bs ++ bytes).length := by
  unfold overwrite
  rw [List.take_left, List.drop_append, List.drop_drop, List.length_append]
  simp

/-- The loop asks for what is missing, and it gives up at the end of the stream. -/
theorem of_ask {q : ℕ} {k : Option (List UInt8) → Receiving}
    (h : RecvState buffer bs (.ask q k)) :
    bs.length < buffer.length ∧ q = buffer.length - bs.length
    ∧ ∀ {a bs'}, Recvs q a bs' → RecvState buffer (bs ++ bs') (k a)
      ∧ (Ended a → bs' = [] ∧ k a = .ret (false, bs ++ buffer.drop bs.length)) := by
  generalize hp : Interaction.ask q k = p at h
  cases h with
  | failed h => cases hp
  | loop h =>
      rw [recvLoop] at hp
      split at hp
      case isFalse => cases hp
      case isTrue hlt =>
        obtain ⟨rfl, rfl⟩ := Interaction.ask.inj hp
        refine ⟨hlt, rfl, ?_⟩
        intro a bs' ha
        match a, ha with
        | none, hnone =>
            rw [show bs' = [] from hnone, List.append_nil]
            exact ⟨.failed hlt, fun _ => ⟨rfl, rfl⟩⟩
        | some [], hzero =>
            rw [show bs' = [] from hzero.2, List.append_nil]
            exact ⟨.failed hlt, fun _ => ⟨rfl, rfl⟩⟩
        | some (b :: rest), ⟨hle, hbs⟩ =>
            refine ⟨?_, fun hended => by simp [Ended] at hended⟩
            show RecvState buffer _ (recvLoop buffer.length (bs.length + (b :: rest).length)
              (overwrite (bs ++ buffer.drop bs.length) bs.length (b :: rest)))
            rw [hbs, overwrite_eq, ← List.length_append]
            exact .loop (by rw [List.length_append]; omega)

theorem of_moves (h : Interaction.Moves Recvs (recvLoop buffer.length 0 buffer) bs p) :
    RecvState buffer bs p :=
  h.invariant (.loop (Nat.zero_le _)) fun h ha => (h.of_ask.2.2 ha).1

/-- `recv` can give any part of what is missing. -/
theorem recvLoop_part {bytes : List UInt8} (hne : bytes ≠ [])
    (h : (bs ++ bytes).length ≤ buffer.length) :
    Interaction.Moves Recvs (recvLoop buffer.length bs.length (bs ++ buffer.drop bs.length)) bytes
      (recvLoop buffer.length (bs ++ bytes).length
        ((bs ++ bytes) ++ buffer.drop (bs ++ bytes).length)) := by
  obtain ⟨b, rest, rfl⟩ := List.exists_cons_of_ne_nil hne
  have hpos : 0 < (b :: rest).length := Nat.succ_pos _
  rw [List.length_append] at h
  have hrecvs : Recvs (buffer.length - bs.length) (some (b :: rest)) (b :: rest) :=
    ⟨by omega, rfl⟩
  rw [← overwrite_eq, List.length_append, recvLoop, if_pos (by omega)]
  exact .answer hrecvs rfl

theorem recvLoop_length {bytes : List UInt8} (h : bytes.length = buffer.length) :
    recvLoop buffer.length bytes.length (bytes ++ buffer.drop bytes.length)
      = .ret (true, bytes) := by
  rw [recvLoop, if_neg (by omega), List.drop_of_length_le (Nat.le_of_eq h.symm), List.append_nil]

/-- If one call of `recv` gives everything, the loop returns true. -/
theorem recvLoop_all {bytes : List UInt8} (h : bytes.length = buffer.length) :
    Interaction.Moves Recvs (recvLoop buffer.length 0 buffer) bytes (.ret (true, bytes)) := by
  rw [← recvLoop_length h]
  by_cases hnil : bytes = []
  · subst hnil
    exact .start
  · exact @recvLoop_part buffer [] bytes hnil (Nat.le_of_eq h)

/-- What the call returns: whether the buffer is full, and the bytes in it. -/
theorem of_ret {r : Bool × List UInt8} (h : RecvState buffer bs (.ret r)) :
    r.2 = bs ++ buffer.drop bs.length ∧ bs.length ≤ buffer.length
    ∧ (r.1 = true ↔ bs.length = buffer.length) := by
  generalize hp : Interaction.ret r = p at h
  cases h with
  | failed h =>
      cases hp
      exact ⟨rfl, Nat.le_of_lt h, by simp [Nat.ne_of_lt h]⟩
  | loop h =>
      rw [recvLoop] at hp
      split at hp
      case isTrue => cases hp
      case isFalse hge =>
        cases hp
        exact ⟨rfl, h, by simp [Nat.le_antisymm h (Nat.not_lt.mp hge)]⟩

end RecvState

end MiniCcl.Sockets
