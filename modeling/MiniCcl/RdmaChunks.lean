/-
MiniCcl/RdmaChunks.lean

The loops of `TransportRdma::Send` and `Recv` that transfer a message in chunks, in
buffer-pool mode.

`max_payload` is the configured buffer size minus the eight bytes of the header, in
`size_t`.  Three cases:

* more than eight bytes: the loops end, and what they transferred is the message;
* exactly eight: `max_payload` is 0, and unless the message is empty the loops transfer
  empty chunks until one of the transfers fails;
* less: `max_payload` wraps around, so chunks are not split, and `Recv` takes chunks
  that do not fit a buffer.  `Send` checks the size of a chunk, but the sum of size and
  header wraps around as well.

A loop is run with fuel; it ends if some fuel is enough.
-/
import MiniCcl.Rdma

namespace MiniCcl.RdmaChunks

open TransportRdma (PoolConfig)

/-! ### The code -/

/-- The loop over the chunks from `offset` on, the next one being the `k`-th transfer:
whether all succeeded, and offset and size of those that did. -/
def transferLoop (transfer : ℕ → ℕ → Bool) (maxPayload size : ℕ) :
    ℕ → ℕ → ℕ → Option (Bool × List (ℕ × ℕ))
  | 0, _, _ => none
  | fuel + 1, k, offset =>
      if offset < size then
        -- 0 if there is no payload: then `offset` stays as it is
        let chunkSize := min (size - offset) maxPayload
        if transfer k chunkSize then
          (transferLoop transfer maxPayload size fuel (k + 1) (offset + chunkSize)).map
            fun r => (r.1, (offset, chunkSize) :: r.2)
        else some (false, [])
      else some (true, [])

/-- The buffer-pool branch of `Send` and of `Recv`, which differ in the function that
transfers one chunk. -/
def transferAll (transfer : ℕ → ℕ → Bool) (maxPayload size fuel : ℕ) :
    Option (Bool × List (ℕ × ℕ)) :=
  if size ≤ maxPayload then
    some (if transfer 0 size then (true, [(0, size)]) else (false, []))
  else transferLoop transfer maxPayload size fuel 0 0

/-- `SendBufferPoolInternal` with its check of the size, in `size_t`; `ok` is whether
everything else succeeds. -/
def sendBufferPoolInternal (c : PoolConfig) (ok : Bool) (size : ℕ) : Bool :=
  if c.bufferSize < (size + 8) % 2 ^ 64 then false else ok

/-- `Send`, where `ok k` is what decides the `k`-th chunk besides its size. -/
def send (c : PoolConfig) (ok : ℕ → Bool) (size fuel : ℕ) : Option (Bool × List (ℕ × ℕ)) :=
  transferAll (fun k => sendBufferPoolInternal c (ok k)) c.maxPayload size fuel

/-- `Recv`; `RecvBufferPoolInternal` does not compare the size with that of a buffer. -/
def recv (c : PoolConfig) (ok : ℕ → Bool) (size fuel : ℕ) : Option (Bool × List (ℕ × ℕ)) :=
  transferAll (fun k _ => ok k) c.maxPayload size fuel

/-! ### What they should do -/

/-- The chunks lie one after the other, from `start` to `stop`. -/
def Consecutive (start : ℕ) : List (ℕ × ℕ) → ℕ → Prop
  | [], stop => start = stop
  | (offset, len) :: rest, stop => offset = start ∧ Consecutive (start + len) rest stop

/-- The chunks are the message: consecutive, small enough for a buffer with the header,
and with every byte of the message in exactly one of them. -/
structure Covers (bufferSize size : ℕ) (chunks : List (ℕ × ℕ)) : Prop where
  consecutive : Consecutive 0 chunks size
  fits : ∀ x ∈ chunks, x.2 + 8 ≤ bufferSize
  once : ∀ j < size, (chunks.countP fun x => x.1 ≤ j ∧ j < x.1 + x.2) = 1

/-- The function returns, and if it returns `true` it has transferred the message. -/
def TransfersMessage (run : ℕ → Option (Bool × List (ℕ × ℕ))) (bufferSize size : ℕ) : Prop :=
  (∃ fuel, (run fuel).isSome) ∧
    ∀ fuel chunks, run fuel = some (true, chunks) → Covers bufferSize size chunks

/-- A buffer has room for the header and some payload, or for the header and an empty
message. -/
def HasRoom (c : PoolConfig) (size : ℕ) : Prop := 8 < c.bufferSize ∨ c.bufferSize = 8 ∧ size = 0

/-- One of the transfers fails.  The `k`-th is that of the bytes from `k * maxPayload` on,
and there is a first one even if the message is empty. -/
def SomeFails (transfer : ℕ → ℕ → Bool) (maxPayload size : ℕ) : Prop :=
  ∃ k, (k = 0 ∨ k * maxPayload < size) ∧
    transfer k (min (size - k * maxPayload) maxPayload) = false

/-! ### Consecutive chunks -/

/-- A byte before the chunks is in none of them. -/
theorem Consecutive.countP_eq_zero {start stop j : ℕ} {chunks : List (ℕ × ℕ)}
    (h : Consecutive start chunks stop) (hj : j < start) :
    (chunks.countP fun x => x.1 ≤ j ∧ j < x.1 + x.2) = 0 := by
  induction chunks generalizing start with
  | nil => rfl
  | cons x rest ih =>
      obtain ⟨hstart, hrest⟩ := h
      have hnot : ¬ (x.1 ≤ j ∧ j < x.1 + x.2) := by omega
      rw [List.countP_cons_of_neg (by simpa using hnot)]
      exact ih hrest (by omega)

/-- A byte between `start` and `stop` is in one chunk. -/
theorem Consecutive.countP_eq_one {start stop j : ℕ} {chunks : List (ℕ × ℕ)}
    (h : Consecutive start chunks stop) (hlo : start ≤ j) (hhi : j < stop) :
    (chunks.countP fun x => x.1 ≤ j ∧ j < x.1 + x.2) = 1 := by
  induction chunks generalizing start with
  | nil => exact absurd (hlo.trans_lt hhi) (Nat.not_lt_of_le (Nat.le_of_eq h.symm))
  | cons x rest ih =>
      obtain ⟨rfl, hrest⟩ := h
      by_cases hin : j < x.1 + x.2
      · have hx : x.1 ≤ j ∧ j < x.1 + x.2 := ⟨hlo, hin⟩
        rw [List.countP_cons_of_pos (by simpa using hx), hrest.countP_eq_zero hin]
      · have hnot : ¬ (x.1 ≤ j ∧ j < x.1 + x.2) := fun hx => hin hx.2
        rw [List.countP_cons_of_neg (by simpa using hnot)]
        exact ih hrest (Nat.le_of_not_lt hin)

/-! ### The loop -/

section Loop

variable {transfer : ℕ → ℕ → Bool} {maxPayload size : ℕ}

/-- One of the transfers of the loop fails, from the `k`-th on, which is at `offset`. -/
def LoopFails (transfer : ℕ → ℕ → Bool) (maxPayload size k offset : ℕ) : Prop :=
  ∃ j, offset + j * maxPayload < size ∧
    transfer (k + j) (min (size - (offset + j * maxPayload)) maxPayload) = false

/-- It is the next one, or one of those after it. -/
theorem loopFails_iff {k offset : ℕ} (hlt : offset < size) :
    LoopFails transfer maxPayload size k offset ↔
      transfer k (min (size - offset) maxPayload) = false ∨
        LoopFails transfer maxPayload size (k + 1) (offset + min (size - offset) maxPayload) := by
  constructor
  · rintro ⟨j, hj, hfail⟩
    cases j with
    | zero => exact .inl (by simpa using hfail)
    | succ j =>
        -- there is a next one, so this one is of full size
        rw [Nat.succ_mul] at hj hfail
        rw [min_eq_right (by omega : maxPayload ≤ size - offset)]
        refine .inr ⟨j, by omega, ?_⟩
        rwa [Nat.add_assoc, Nat.add_comm 1, Nat.add_assoc, Nat.add_comm maxPayload]
  · rintro (hfail | ⟨j, hj, hfail⟩)
    · exact ⟨0, by simpa using hlt, by simpa using hfail⟩
    · rw [min_eq_right (by omega : maxPayload ≤ size - offset)] at hj hfail
      refine ⟨j + 1, by rw [Nat.succ_mul]; omega, ?_⟩
      rwa [Nat.succ_mul, Nat.add_comm j 1, ← Nat.add_assoc, Nat.add_comm (j * maxPayload),
        ← Nat.add_assoc]

/-- A step of the loop ends if the loop after it does. -/
theorem transferLoop_succ_isSome {fuel k offset : ℕ}
    (h : offset < size → transfer k (min (size - offset) maxPayload) = true →
      (transferLoop transfer maxPayload size fuel (k + 1)
        (offset + min (size - offset) maxPayload)).isSome) :
    (transferLoop transfer maxPayload size (fuel + 1) k offset).isSome := by
  rw [transferLoop]
  by_cases hlt : offset < size
  · rw [if_pos hlt]
    dsimp only
    by_cases hok : transfer k (min (size - offset) maxPayload) = true
    · rw [if_pos hok, Option.isSome_map]
      exact h hlt hok
    · rw [if_neg hok]
      rfl
  · rw [if_neg hlt]
    rfl

/-- How a step of the loop goes: it is at the end, the transfer fails, or the loop goes
on. -/
theorem transferLoop_cases {fuel k offset : ℕ} {b : Bool} {chunks : List (ℕ × ℕ)}
    (h : transferLoop transfer maxPayload size (fuel + 1) k offset = some (b, chunks)) :
    (size ≤ offset ∧ b = true ∧ chunks = []) ∨
    (offset < size ∧ transfer k (min (size - offset) maxPayload) = false ∧ b = false) ∨
    (offset < size ∧ transfer k (min (size - offset) maxPayload) = true ∧
      ∃ rest, transferLoop transfer maxPayload size fuel (k + 1)
          (offset + min (size - offset) maxPayload) = some (b, rest) ∧
        chunks = (offset, min (size - offset) maxPayload) :: rest) := by
  rw [transferLoop] at h
  by_cases hlt : offset < size
  · rw [if_pos hlt] at h
    dsimp only at h
    cases hok : transfer k (min (size - offset) maxPayload) with
    | false =>
        obtain ⟨rfl, -⟩ := Prod.mk.inj (Option.some.inj (by simpa [hok] using h))
        exact .inr (.inl ⟨hlt, rfl, rfl⟩)
    | true =>
        rw [if_pos hok] at h
        obtain ⟨⟨b', rest⟩, hrest, heq⟩ := Option.map_eq_some_iff.mp h
        obtain ⟨rfl, rfl⟩ := Prod.mk.inj heq
        exact .inr (.inr ⟨hlt, rfl, rest, hrest, rfl⟩)
  · rw [if_neg hlt] at h
    obtain ⟨rfl, rfl⟩ := Prod.mk.inj (Option.some.inj h)
    exact .inl ⟨Nat.le_of_not_lt hlt, rfl, rfl⟩

/-- With some payload in each chunk the loop ends. -/
theorem transferLoop_isSome (hpos : 0 < maxPayload) {fuel k offset : ℕ}
    (hfuel : size - offset < fuel) :
    (transferLoop transfer maxPayload size fuel k offset).isSome := by
  induction fuel generalizing k offset with
  | zero => exact absurd hfuel (Nat.not_lt_zero _)
  | succ fuel ih =>
      apply transferLoop_succ_isSome
      intro hlt _
      apply ih
      omega

/-- A transfer that fails ends the loop, whatever the payload. -/
theorem transferLoop_isSome_of_fails {j k offset : ℕ} (hj : offset + j * maxPayload < size)
    (hfail : transfer (k + j) (min (size - (offset + j * maxPayload)) maxPayload) = false) :
    (transferLoop transfer maxPayload size (j + 1) k offset).isSome := by
  induction j generalizing k offset with
  | zero =>
      -- this is the one that fails
      apply transferLoop_succ_isSome
      intro _ hok
      rw [Nat.zero_mul, Nat.add_zero, Nat.add_zero, hok] at hfail
      exact absurd hfail (by simp)
  | succ j ih =>
      apply transferLoop_succ_isSome
      intro _ _
      rw [Nat.succ_mul] at hj hfail
      rw [min_eq_right (by omega : maxPayload ≤ size - offset)]
      apply ih
      · omega
      · rwa [Nat.add_assoc k, Nat.add_comm 1, Nat.add_assoc offset, Nat.add_comm maxPayload]

/-- Without payload it ends only if a transfer fails. -/
theorem transferLoop_eq_none (hok : ∀ k, transfer k 0 = true) {offset : ℕ} (hlt : offset < size)
    (fuel k : ℕ) : transferLoop transfer 0 size fuel k offset = none := by
  induction fuel generalizing k with
  | zero => rfl
  | succ fuel ih =>
      rw [transferLoop, if_pos hlt]
      simp [hok, ih]

/-- If the loop returns, it returns `true` if and only if no transfer fails. -/
theorem transferLoop_true_iff {fuel k offset : ℕ} {b : Bool} {chunks : List (ℕ × ℕ)}
    (h : transferLoop transfer maxPayload size fuel k offset = some (b, chunks)) :
    b = true ↔ ¬ LoopFails transfer maxPayload size k offset := by
  induction fuel generalizing k offset chunks with
  | zero => exact absurd h (by simp [transferLoop])
  | succ fuel ih =>
      rcases transferLoop_cases h with
        ⟨hend, rfl, -⟩ | ⟨hlt, hfail, rfl⟩ | ⟨hlt, hok, rest, hrest, -⟩
      · refine iff_of_true rfl ?_
        rintro ⟨j, hj, -⟩
        exact absurd hend (Nat.not_le_of_lt (Nat.lt_of_le_of_lt (Nat.le_add_right _ _) hj))
      · rw [loopFails_iff hlt]
        simp [hfail]
      · rw [loopFails_iff hlt, ih hrest]
        simp [hok]

/-- If the loop returns `true`, the chunks are consecutive up to the end, of at most
`max_payload` bytes. -/
theorem transferLoop_consecutive {fuel k offset : ℕ} (hle : offset ≤ size) {chunks : List (ℕ × ℕ)}
    (h : transferLoop transfer maxPayload size fuel k offset = some (true, chunks)) :
    Consecutive offset chunks size ∧ ∀ x ∈ chunks, x.2 ≤ maxPayload := by
  induction fuel generalizing k offset chunks with
  | zero => exact absurd h (by simp [transferLoop])
  | succ fuel ih =>
      rcases transferLoop_cases h with ⟨hend, -, rfl⟩ | ⟨-, -, hfalse⟩ | ⟨hlt, -, rest, hrest, rfl⟩
      · exact ⟨le_antisymm hle hend, by simp⟩
      · exact absurd hfalse (by simp)
      · obtain ⟨hcons, hmax⟩ := ih (by omega) hrest
        exact ⟨⟨rfl, hcons⟩, List.forall_mem_cons.mpr ⟨min_le_right _ _, hmax⟩⟩

end Loop

/-! ### A single chunk or the loop -/

section TransferAll

variable {transfer : ℕ → ℕ → Bool} {maxPayload size : ℕ}

theorem someFails_of_le (hle : size ≤ maxPayload) :
    SomeFails transfer maxPayload size ↔ transfer 0 size = false := by
  have hmin : min (size - 0 * maxPayload) maxPayload = size := by
    rw [Nat.zero_mul, Nat.sub_zero, min_eq_left hle]
  constructor
  · rintro ⟨k, hk, hfail⟩
    rcases Nat.eq_zero_or_pos k with rfl | hpos
    · rwa [hmin] at hfail
    · -- a second transfer would be behind the end
      have hmul : maxPayload ≤ k * maxPayload := Nat.le_mul_of_pos_left _ hpos
      omega
  · intro hfail
    exact ⟨0, .inl rfl, by rwa [hmin]⟩

theorem someFails_of_lt (hlt : maxPayload < size) :
    SomeFails transfer maxPayload size ↔ LoopFails transfer maxPayload size 0 0 := by
  unfold SomeFails LoopFails
  simp only [Nat.zero_add]
  constructor
  · rintro ⟨k, rfl | hk, hfail⟩
    · exact ⟨0, by omega, hfail⟩
    · exact ⟨k, hk, hfail⟩
  · rintro ⟨k, hk, hfail⟩
    exact ⟨k, .inr hk, hfail⟩

/-- How a single chunk goes. -/
theorem transferAll_cases (hle : size ≤ maxPayload) {fuel : ℕ} {b : Bool}
    {chunks : List (ℕ × ℕ)} (h : transferAll transfer maxPayload size fuel = some (b, chunks)) :
    (transfer 0 size = true ∧ b = true ∧ chunks = [(0, size)]) ∨
    (transfer 0 size = false ∧ b = false) := by
  rw [transferAll, if_pos hle] at h
  cases hok : transfer 0 size with
  | true =>
      obtain ⟨rfl, rfl⟩ := Prod.mk.inj (Option.some.inj (by simpa [hok] using h))
      exact .inl ⟨rfl, rfl, rfl⟩
  | false =>
      obtain ⟨rfl, -⟩ := Prod.mk.inj (Option.some.inj (by simpa [hok] using h))
      exact .inr ⟨rfl, rfl⟩

/-- If `transferAll` returns, it returns `true` if and only if no transfer fails. -/
theorem transferAll_true_iff {fuel : ℕ} {b : Bool} {chunks : List (ℕ × ℕ)}
    (h : transferAll transfer maxPayload size fuel = some (b, chunks)) :
    b = true ↔ ¬ SomeFails transfer maxPayload size := by
  rcases le_or_gt size maxPayload with hle | hlt
  · rw [someFails_of_le hle]
    rcases transferAll_cases hle h with ⟨hok, rfl, -⟩ | ⟨hfail, rfl⟩
    · simp [hok]
    · simp [hfail]
  · rw [someFails_of_lt hlt]
    rw [transferAll, if_neg (Nat.not_le_of_lt hlt)] at h
    exact transferLoop_true_iff h

/-- If it returns `true`, the chunks are consecutive, of at most `max_payload` bytes. -/
theorem transferAll_consecutive {fuel : ℕ} {chunks : List (ℕ × ℕ)}
    (h : transferAll transfer maxPayload size fuel = some (true, chunks)) :
    Consecutive 0 chunks size ∧ ∀ x ∈ chunks, x.2 ≤ maxPayload := by
  rcases le_or_gt size maxPayload with hle | hlt
  · rcases transferAll_cases hle h with ⟨-, -, rfl⟩ | ⟨-, hfalse⟩
    · exact ⟨⟨rfl, Nat.zero_add size⟩, by simpa using hle⟩
    · exact absurd hfalse (by simp)
  · rw [transferAll, if_neg (Nat.not_le_of_lt hlt)] at h
    exact transferLoop_consecutive (Nat.zero_le size) h

/-- It has transferred a chunk, maybe an empty one. -/
theorem transferAll_ne_nil {fuel : ℕ} {chunks : List (ℕ × ℕ)}
    (h : transferAll transfer maxPayload size fuel = some (true, chunks)) : chunks ≠ [] := by
  rintro rfl
  have hsize : 0 = size := (transferAll_consecutive h).1
  rcases transferAll_cases (by omega) h with ⟨-, -, hnil⟩ | ⟨-, hfalse⟩
  · exact absurd hnil (by simp)
  · exact absurd hfalse (by simp)

/-- It returns if there is payload in each chunk, if the message is empty, and if a
transfer fails. -/
theorem transferAll_isSome (h : 0 < maxPayload ∨ size = 0 ∨ SomeFails transfer maxPayload size) :
    ∃ fuel, (transferAll transfer maxPayload size fuel).isSome := by
  rcases le_or_gt size maxPayload with hle | hlt
  · exact ⟨0, by rw [transferAll, if_pos hle]; rfl⟩
  · simp only [transferAll, if_neg (Nat.not_le_of_lt hlt)]
    rcases h with hpos | rfl | hfails
    · exact ⟨size + 1, transferLoop_isSome hpos (by omega)⟩
    · exact absurd hlt (Nat.not_lt_zero _)
    · obtain ⟨j, hj, hfail⟩ := (someFails_of_lt hlt).mp hfails
      exact ⟨j + 1, transferLoop_isSome_of_fails hj hfail⟩

/-- Without payload a message that is not empty is never done, unless a transfer
fails. -/
theorem transferAll_eq_none (hpos : 0 < size) (hok : ¬ SomeFails transfer 0 size) (fuel : ℕ) :
    transferAll transfer 0 size fuel = none := by
  rw [transferAll, if_neg (Nat.not_le_of_lt hpos)]
  refine transferLoop_eq_none (fun k => ?_) hpos fuel 0
  by_contra hfail
  exact hok ⟨k, .inr (by simpa using hpos), by simpa using hfail⟩

end TransferAll

/-! ### When they transfer the message -/

section Config

variable {c : PoolConfig} {size : ℕ} {transfer : ℕ → ℕ → Bool}

theorem maxPayload_of_le (h : 8 ≤ c.bufferSize) : c.maxPayload = c.bufferSize - 8 := if_pos h

/-- With room, whatever is transferred is the message. -/
theorem transferAll_covers (hroom : HasRoom c size) {fuel : ℕ} {chunks : List (ℕ × ℕ)}
    (h : transferAll transfer c.maxPayload size fuel = some (true, chunks)) :
    Covers c.bufferSize size chunks := by
  have hle : 8 ≤ c.bufferSize := by
    rcases hroom with hlt | ⟨heq, -⟩ <;> omega
  obtain ⟨hcons, hmax⟩ := transferAll_consecutive h
  rw [maxPayload_of_le hle] at hmax
  refine ⟨hcons, fun x hx => ?_, fun j hj => hcons.countP_eq_one (Nat.zero_le j) hj⟩
  have := hmax x hx
  omega

/-- The function returns with the whole message or with a failure if and only if there is
room, or a failure. -/
theorem transferAll_iff :
    TransfersMessage (transferAll transfer c.maxPayload size) c.bufferSize size ↔
      HasRoom c size ∨ SomeFails transfer c.maxPayload size := by
  constructor
  · rintro ⟨⟨fuel, hends⟩, hcovers⟩
    by_contra hnot
    obtain ⟨hroom, hok⟩ := not_or.mp hnot
    rcases lt_trichotomy c.bufferSize 8 with hlt | heq | hgt
    · -- all transfers succeed, and the first chunk does not fit
      obtain ⟨⟨b, chunks⟩, hrun⟩ := Option.isSome_iff_exists.mp hends
      obtain rfl : b = true := (transferAll_true_iff hrun).mpr hok
      obtain ⟨x, hx⟩ := List.exists_mem_of_ne_nil chunks (transferAll_ne_nil hrun)
      have := (hcovers fuel chunks hrun).fits x hx
      omega
    · -- all transfers succeed, and the loop stays where it is
      have hmax : c.maxPayload = 0 := by rw [maxPayload_of_le (Nat.le_of_eq heq.symm), heq]
      have hpos : 0 < size := Nat.pos_of_ne_zero fun hzero => hroom (.inr ⟨heq, hzero⟩)
      rw [hmax] at hok hends
      rw [transferAll_eq_none hpos hok] at hends
      exact absurd hends (by simp)
    · exact hroom (.inl hgt)
  · rintro (hroom | hfails)
    · refine ⟨transferAll_isSome ?_, fun _ _ hrun => transferAll_covers hroom hrun⟩
      rcases hroom with hlt | ⟨-, hzero⟩
      · exact .inl (by rw [maxPayload_of_le (Nat.le_of_lt hlt)]; omega)
      · exact .inr (.inl hzero)
    · refine ⟨transferAll_isSome (.inr (.inr hfails)), fun _ _ hrun => ?_⟩
      exact absurd hfails ((transferAll_true_iff hrun).mp rfl)

end Config

/-- **`Send` and `Recv` end with the whole message or with a failure if and only if a
buffer has room for the header and some payload**, or for the header and an empty
message, or one of the transfers fails. -/
theorem chunk_loops_iff (c : PoolConfig) (ok : ℕ → Bool) (size : ℕ) :
    (TransfersMessage (send c ok size) c.bufferSize size ↔
      HasRoom c size ∨
        SomeFails (fun k => sendBufferPoolInternal c (ok k)) c.maxPayload size) ∧
    (TransfersMessage (recv c ok size) c.bufferSize size ↔
      HasRoom c size ∨ SomeFails (fun k _ => ok k) c.maxPayload size) :=
  ⟨transferAll_iff, transferAll_iff⟩

/-- With buffers of eight bytes, `Send` of one byte does not return if nothing fails: the
empty chunks all pass the check of the size. -/
theorem send_never_returns :
    ¬ (TransfersMessage (send ⟨8, 16, by decide, by decide⟩ (fun _ => true) 1) 8 1 ∧
      TransfersMessage (recv ⟨8, 16, by decide, by decide⟩ (fun _ => true) 1) 8 1) := by
  rintro ⟨⟨⟨fuel, hends⟩, -⟩, -⟩
  have hok :
      ¬ SomeFails (fun _ => sendBufferPoolInternal ⟨8, 16, by decide, by decide⟩ true) 0 1 := by
    rintro ⟨k, -, hfail⟩
    simp [sendBufferPoolInternal] at hfail
  have hnone := transferAll_eq_none Nat.one_pos hok fuel
  rw [show send ⟨8, 16, by decide, by decide⟩ (fun _ => true) 1 fuel = none from hnone] at hends
  exact absurd hends (by simp)

end MiniCcl.RdmaChunks
