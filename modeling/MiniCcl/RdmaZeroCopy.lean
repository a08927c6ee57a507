/-
MiniCcl/RdmaZeroCopy.lean

`TransportRdma` in zero-copy mode, and when it delivers what buffer-pool mode does.

A message is gathered from two SGEs, the size header and the data, and scattered
into two at the receiver.  Of verbs the model has this: registering a non-empty
region succeeds; a post fails only if it asks for more inline data than the QP was
created for; a message goes into the buffers of the posted receive if it fits; the
length of an SGE has 32 bits.

Zero-copy mode fails where buffer-pool mode does not: an empty message has no MR, a
small one is sent inline although the QP has no room for inline data, and of a large
one only a part is in the SGE, while the size header passes the check
(`zeroCopy_agrees_iff`).
-/
import MiniCcl.RdmaOneWay
import Mathlib.Algebra.Ring.Nat

namespace MiniCcl.TransportRdma

namespace ZeroCopy

/-! ### Verbs -/

/-- The blocks of a call: its local `net_size`, and the buffer of the caller. -/
inductive Block
  | netSize
  | user
  deriving DecidableEq, Repr

/-- `AutoMR`: a region is registered only if it is not empty. -/
def autoMR (length : ℕ) : Bool := 0 < length

/-- `max_inline_data`, which `InitRdmaResources` leaves at zero. -/
def maxInlineData : ℕ := 0

def INLINE_THRESHOLD : ℕ := 256

/-- A send of the bytes of `sgList`, with the flag `IBV_SEND_INLINE`. -/
structure SendWr where
  sgList : List (Slice Block)
  inline : Bool

/-- The bytes of some SGEs, one after the other. -/
def gather (m : Mem Block UInt8) : List (Slice Block) → List UInt8
  | [] => []
  | s :: ss => m.read s ++ gather m ss

/-- Fill some SGEs, one after the other. -/
def scatter (m : Mem Block UInt8) : List (Slice Block) → List UInt8 → Mem Block UInt8
  | [], _ => m
  | s :: ss, bytes => scatter (m.write s (bytes.take s.len)) ss (bytes.drop s.len)

/-- The message that `ibv_post_send` puts on the wire, or none. -/
def postSend (m : Mem Block UInt8) (wr : SendWr) : Option (List UInt8) :=
  if wr.inline && decide (maxInlineData < (wr.sgList.map Slice.len).sum) then none
  else some (gather m wr.sgList)

/-! ### Send and Recv -/

/-- `sge[0]` is the size, `sge[1]` the data. -/
def sgList (size : ℕ) : List (Slice Block) := [⟨.netSize, 0, 8⟩, ⟨.user, 0, size % 2 ^ 32⟩]

/-- `SendZeroCopyInternal`: the message that it sends, or none if it returns false. -/
def sendZeroCopyInternal (m : Mem Block UInt8) (size : ℕ) : Option (List UInt8) :=
  let m := m.write ⟨.netSize, 0, 8⟩ (htobe64 size)
  if !autoMR 8 then none
  else if !autoMR size then none
  else postSend m ⟨sgList size, (size + 8) % 2 ^ 64 ≤ INLINE_THRESHOLD⟩

/-- `RecvZeroCopyInternal`, when `msg` is the next message: what it returns, and the
memory after it. -/
def recvZeroCopyInternal (m : Mem Block UInt8) (size : ℕ) (msg : List UInt8) :
    Bool × Mem Block UInt8 :=
  let m := m.write ⟨.netSize, 0, 8⟩ (List.replicate 8 0)
  if !autoMR 8 then (false, m)
  else if !autoMR size then (false, m)
  -- a message that does not fit completes with an error
  else if ((sgList size).map Slice.len).sum < msg.length then (false, m)
  else
    let m := scatter m (sgList size) msg
    (be64toh (m.read ⟨.netSize, 0, 8⟩) == size, m)

/-- A `Send` of the first `size` bytes of `src` and the matching `Recv` into `dst` both
return true, and the bytes are there. -/
def Delivers (src dst : Mem Block UInt8) (size : ℕ) : Prop :=
  ∃ msg, sendZeroCopyInternal src size = some msg ∧
    (recvZeroCopyInternal dst size msg).1 = true ∧
    (recvZeroCopyInternal dst size msg).2.read ⟨.user, 0, size⟩ = src.read ⟨.user, 0, size⟩

/-! ### What is sent -/

/-- Small messages are not sent. -/
theorem sendZeroCopyInternal_small (src : Mem Block UInt8) {size : ℕ} (h : size ≤ 248) :
    sendZeroCopyInternal src size = none := by
  unfold sendZeroCopyInternal
  rcases Nat.eq_zero_or_pos size with rfl | hpos
  · rfl
  · -- the QP has no room for inline data
    have hinline : (size + 8) % 2 ^ 64 ≤ INLINE_THRESHOLD := by
      rw [Nat.mod_eq_of_lt (by omega), INLINE_THRESHOLD]
      omega
    have hroom : maxInlineData < ((sgList size).map Slice.len).sum := by
      rw [maxInlineData, sgList, List.map_cons, List.sum_cons]
      exact Nat.add_pos_left (by decide) _
    simp only [autoMR, postSend, hpos, hinline, hroom]
    rfl

/-- A message that is sent is the size header and the data that the SGE has. -/
theorem sendZeroCopyInternal_eq (src : Mem Block UInt8) {size : ℕ} {msg : List UInt8}
    (h : sendZeroCopyInternal src size = some msg) :
    msg = htobe64 size ++ src.read ⟨.user, 0, size % 2 ^ 32⟩ := by
  have hdisj : (⟨.user, 0, size % 2 ^ 32⟩ : Slice Block).Disjoint ⟨.netSize, 0, 8⟩ :=
    Slice.disjoint_of_buf_ne Block.noConfusion
  have hlen : (htobe64 size).length = 8 := length_toBigEndian 8 size
  have hheader := Mem.read_write_self src .netSize 0 (htobe64 size)
  rw [hlen] at hheader
  have hgather : gather (src.write ⟨.netSize, 0, 8⟩ (htobe64 size)) (sgList size)
      = htobe64 size ++ src.read ⟨.user, 0, size % 2 ^ 32⟩ := by
    rw [sgList, gather, gather, gather, hheader, Mem.read_write_of_disjoint hdisj,
      List.append_nil]
  unfold sendZeroCopyInternal postSend at h
  split_ifs at h
  rw [← hgather]
  exact (Option.some.inj h).symm

theorem sendZeroCopyInternal_of_lt (src : Mem Block UInt8) {size : ℕ} (h : 248 < size)
    (hlt : size < 2 ^ 32) :
    sendZeroCopyInternal src size = some (htobe64 size ++ src.read ⟨.user, 0, size⟩) := by
  have hsent : ∃ msg, sendZeroCopyInternal src size = some msg := by
    unfold sendZeroCopyInternal postSend
    have hpos : 0 < size := by omega
    have hinline : ¬ (size + 8) % 2 ^ 64 ≤ INLINE_THRESHOLD := by
      rw [Nat.mod_eq_of_lt (by omega), INLINE_THRESHOLD]
      omega
    simp only [autoMR, hpos, hinline]
    exact ⟨_, rfl⟩
  obtain ⟨msg, hmsg⟩ := hsent
  rw [hmsg, sendZeroCopyInternal_eq src hmsg, Nat.mod_eq_of_lt hlt]

/-! ### What is received -/

/-- The bytes after the header go to the buffer of the caller. -/
theorem scatter_sgList (m : Mem Block UInt8) (size : ℕ) {data : List UInt8}
    (h : data.length = size % 2 ^ 32) :
    scatter m (sgList size) (htobe64 size ++ data)
      = (m.write ⟨.netSize, 0, 8⟩ (htobe64 size)).write ⟨.user, 0, size % 2 ^ 32⟩ data := by
  have hlen : (htobe64 size).length = 8 := length_toBigEndian 8 size
  have htake : (htobe64 size ++ data).take 8 = htobe64 size := by
    rw [← hlen]
    exact List.take_left
  have hdrop : (htobe64 size ++ data).drop 8 = data := by
    rw [← hlen]
    exact List.drop_left
  rw [sgList, scatter, scatter, scatter, htake, hdrop, ← h, List.take_length]

/-- The memory of the receiver after the message. -/
def received (src dst : Mem Block UInt8) (size : ℕ) : Mem Block UInt8 :=
  ((dst.write ⟨.netSize, 0, 8⟩ (List.replicate 8 0)).write ⟨.netSize, 0, 8⟩ (htobe64 size)).write
    ⟨.user, 0, size % 2 ^ 32⟩ (src.read ⟨.user, 0, size % 2 ^ 32⟩)

/-- The message has just the size of the SGEs, also where they are too short. -/
theorem recvZeroCopyInternal_eq (src dst : Mem Block UInt8) {size : ℕ} (h : 0 < size) :
    recvZeroCopyInternal dst size (htobe64 size ++ src.read ⟨.user, 0, size % 2 ^ 32⟩)
      = (be64toh ((received src dst size).read ⟨.netSize, 0, 8⟩) == size,
          received src dst size) := by
  have hfit : ¬ ((sgList size).map Slice.len).sum
      < (htobe64 size ++ src.read ⟨.user, 0, size % 2 ^ 32⟩).length := by
    rw [List.length_append, htobe64, length_toBigEndian, Mem.length_read]
    exact Nat.lt_irrefl _
  have hscatter := scatter_sgList (dst.write ⟨.netSize, 0, 8⟩ (List.replicate 8 0)) size
    (Mem.length_read src ⟨.user, 0, size % 2 ^ 32⟩)
  unfold recvZeroCopyInternal
  rw [if_neg (by decide), if_neg (by rw [autoMR, decide_eq_true h]; decide), if_neg hfit, hscatter]
  rfl

theorem header_received (src dst : Mem Block UInt8) (size : ℕ) :
    be64toh ((received src dst size).read ⟨.netSize, 0, 8⟩) = size % 2 ^ 64 := by
  have hdisj : (⟨.netSize, 0, 8⟩ : Slice Block).Disjoint ⟨.user, 0, size % 2 ^ 32⟩ :=
    Slice.disjoint_of_buf_ne Block.noConfusion
  have hlen : (htobe64 size).length = 8 := length_toBigEndian 8 size
  have hheader := Mem.read_write_self (dst.write ⟨.netSize, 0, 8⟩ (List.replicate 8 0))
    .netSize 0 (htobe64 size)
  rw [hlen] at hheader
  rw [received, Mem.read_write_of_disjoint hdisj, hheader, htobe64, be64toh,
    ofBigEndian_toBigEndian]
  rfl

theorem read_received (src dst : Mem Block UInt8) {size : ℕ} (h : size < 2 ^ 32) :
    (received src dst size).read ⟨.user, 0, size⟩ = src.read ⟨.user, 0, size⟩ := by
  have hread := Mem.read_write_self ((dst.write ⟨.netSize, 0, 8⟩ (List.replicate 8 0)).write
    ⟨.netSize, 0, 8⟩ (htobe64 size)) .user 0 (src.read ⟨.user, 0, size⟩)
  rw [Mem.length_read] at hread
  rw [received, Nat.mod_eq_of_lt h]
  exact hread

/-- Beyond the 32 bits the buffer keeps what it has held. -/
theorem received_apply (src dst : Mem Block UInt8) {size i : ℕ} (h : size % 2 ^ 32 ≤ i) :
    received src dst size .user i = dst .user i := by
  have huser : ¬ (⟨.user, 0, size % 2 ^ 32⟩ : Slice Block).Has .user i := by
    rintro ⟨-, -, hi⟩
    rw [Nat.zero_add] at hi
    exact Nat.not_lt_of_le h hi
  have hheader : ¬ (⟨.netSize, 0, 8⟩ : Slice Block).Has .user i := fun hhas => nomatch hhas.1
  rw [received, Mem.write_of_not_has huser, Mem.write_of_not_has hheader,
    Mem.write_of_not_has hheader]

theorem delivers_of_lt (src dst : Mem Block UInt8) {size : ℕ} (h : 248 < size)
    (hlt : size < 2 ^ 32) : Delivers src dst size := by
  have hsent := sendZeroCopyInternal_of_lt src h hlt
  have hpos : 0 < size := by omega
  have hreceived := recvZeroCopyInternal_eq src dst hpos
  rw [Nat.mod_eq_of_lt hlt] at hreceived
  refine ⟨_, hsent, ?_, ?_⟩
  · rw [hreceived, header_received, Nat.mod_eq_of_lt (by omega)]
    exact beq_self_eq_true size
  · rw [hreceived]
    exact read_received src dst hlt

/-- A message of `2 ^ 32` bytes or more loses its last byte. -/
theorem not_delivers_of_ge (src : Mem Block UInt8) {size : ℕ} (h : 2 ^ 32 ≤ size) :
    ¬ Delivers src (fun _ _ => src .user (size - 1) + 1) size := by
  rintro ⟨msg, hsent, -, hread⟩
  rw [sendZeroCopyInternal_eq src hsent, recvZeroCopyInternal_eq src _ (by omega)] at hread
  have hmod : size % 2 ^ 32 < 2 ^ 32 := Nat.mod_lt _ (by decide)
  have hlast := congrArg (·[size - 1]?) hread
  simp only at hlast
  rw [Mem.getElem?_read _ _ (show size - 1 < size by omega),
    Mem.getElem?_read _ _ (show size - 1 < size by omega), Option.some.injEq, Nat.zero_add,
    received_apply src _ (by omega)] at hlast
  simp at hlast

theorem delivers_iff (src : Mem Block UInt8) (size : ℕ) :
    (∀ dst, Delivers src dst size) ↔ 248 < size ∧ size < 2 ^ 32 := by
  constructor
  · intro h
    constructor
    · by_contra hsmall
      obtain ⟨msg, hsent, -⟩ := h src
      rw [sendZeroCopyInternal_small src (Nat.le_of_not_lt hsmall)] at hsent
      cases hsent
    · by_contra hlarge
      exact not_delivers_of_ge src (Nat.le_of_not_lt hlarge) (h _)
  · rintro ⟨h, hlt⟩ dst
    exact delivers_of_lt src dst h hlt

/-! ### The other mode -/

/-- One message of `data`, with the default configuration at both ends. -/
def single (data : List UInt8) : Calls where
  config _ := .default
  data _ _ := data
  size _ _ := data.length

/-- In buffer-pool mode the `Send` and the `Recv` return, and the data has arrived. -/
def PoolDelivers (data : List UInt8) : Prop :=
  ∀ mem, ∃ l t, Lts.Run (Step (single data)) (State.OneWayCalls .connecting 1)
      (.connected (single data) mem) l t ∧
    (t.endpoint .connecting).sends = 1 ∧ (t.endpoint .accepting).recvs = 1 ∧
    (t.endpoint .accepting).delivered = [data]

theorem poolDelivers (data : List UInt8) : PoolDelivers data := by
  intro mem
  have hx : (single data).Stream .connecting := by
    refine ⟨rfl, ?_, ?_, ?_, fun _ => rfl⟩
    · show 0 < PoolConfig.default.bufferCount
      decide
    · show 8 < PoolConfig.default.bufferSize
      decide
    · show PoolConfig.default.bufferSize < 2 ^ 32
      decide
  obtain ⟨C, hstep⟩ := hx.exists_step 1
  obtain ⟨l, t, hrun, hstuck⟩ := Lts.Run.exists_stuck (T := Step (single data))
    (P := State.OneWayCalls .connecting 1) (J := State.OneWay (single data) .connecting 1)
    hstep (State.oneWay_connected (single data) .connecting 1 mem)
  have h := hx.oneWay_of_run hrun
  obtain ⟨hsends, hrecvs⟩ := hx.returned_of_stuck h hstuck
  have hdelivered := h.flow.recv.delivered
  rw [hrecvs] at hdelivered
  exact ⟨l, t, hrun, hsends, hrecvs, hdelivered⟩

/-- **Zero-copy mode delivers what buffer-pool mode delivers, whatever the receive
buffer holds before, if and only if** the size is more than 248 and less than
`2 ^ 32`. -/
theorem zeroCopy_agrees_iff (src : Mem Block UInt8) (size : ℕ) :
    (PoolDelivers (src.read ⟨.user, 0, size⟩) → ∀ dst, Delivers src dst size)
      ↔ 248 < size ∧ size < 2 ^ 32 := by
  rw [← delivers_iff]
  constructor
  · intro h
    exact h (poolDelivers _)
  · intro h _
    exact h

/-- A message of one byte: buffer-pool mode delivers it, and in zero-copy mode `Send`
returns false. -/
theorem one_byte_not_sent :
    PoolDelivers (Mem.read (fun _ _ => 7) (⟨.user, 0, 1⟩ : Slice Block)) ∧
      sendZeroCopyInternal (fun _ _ => 7) 1 = none ∧
      ¬ ∀ dst, Delivers (fun _ _ => 7) dst 1 := by
  refine ⟨poolDelivers _, rfl, fun h => ?_⟩
  obtain ⟨msg, hsent, -⟩ := h fun _ _ => 0
  cases hsent

end ZeroCopy

end MiniCcl.TransportRdma
