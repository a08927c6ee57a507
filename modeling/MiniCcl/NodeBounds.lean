/-
MiniCcl/NodeBounds.lean

Which frames `RecvNodeInfo` and `RecvAllNodes` decode without reading outside them.

The decoders are given a pointer and an offset but not the size of the buffer, so
they read wherever the lengths in the frame lead them.  Each decoder is run once and
for all (`run_decodeInt`, `run_decodeNodeInfo`); what is left is a condition on the
bytes: `decode_inside_iff`.
-/
import MiniCcl.Bootstrap

namespace MiniCcl.Bootstrap

open Utils

/-- `RecvAllNodes`, with the frame of `RecvAll`. -/
def recvAllNodes : Option (List UInt8) → Except Fault (Option (List NodeInfo))
  | none => .ok none
  | some buffer => ((decodeAllNodes buffer).run 0).map fun r => some r.1

/-! ### Frames with room for what they announce -/

/-- The four bytes at `offset`. -/
def intAt (frame : List UInt8) (offset : ℕ) : BitVec 32 :=
  BitVec.ofNat 32 (ofBigEndian ((frame.drop offset).take 4))

/-- The length of the `ip_addr` of the record at `offset`. -/
def ipLength (frame : List UInt8) (offset : ℕ) : BitVec 32 := intAt frame (offset + 4)

/-- The end of the record at `offset`, if the length in it is not negative. -/
def recordEnd (frame : List UInt8) (offset : ℕ) : ℕ := offset + 12 + (ipLength frame offset).toNat

/-- The frame has the rank and the length of the record at `offset`, and all of the
record unless the length is negative. -/
def RecordInside (frame : List UInt8) (offset : ℕ) : Prop :=
  offset + 8 ≤ frame.length ∧
    (0 ≤ (ipLength frame offset).toInt → recordEnd frame offset ≤ frame.length)

/-- The same for `count` records, the last of which may be the first one with a negative
length. -/
def RecordsInside (frame : List UInt8) : ℕ → ℕ → Prop
  | 0, _ => True
  | count + 1, offset => RecordInside frame offset ∧
      (0 ≤ (ipLength frame offset).toInt → RecordsInside frame count (recordEnd frame offset))

/-- The same for a table, unless the number of its records is negative. -/
def TableInside (frame : List UInt8) : Prop :=
  4 ≤ frame.length ∧
    (0 ≤ (intAt frame 0).toInt → RecordsInside frame (intAt frame 0).toNat 4)

/-! ### The decoders -/

section Decoders

variable {β : Type} (frame : List UInt8) (offset : ℕ)

theorem run_readBytes (n : ℕ) (k : List UInt8 → StateT ℕ (Except Fault) β) :
    (readBytes n frame >>= k).run offset
      = if offset + n ≤ frame.length then (k ((frame.drop offset).take n)).run (offset + n)
        else .error .outOfBounds := by
  rw [StateT.run_bind]
  show (if _ then _ else _) >>= _ = _
  by_cases h : offset + n ≤ frame.length
  · rw [if_pos h, if_pos h]
    rfl
  · rw [if_neg h, if_neg h]
    rfl

theorem run_decodeInt (k : BitVec 32 → StateT ℕ (Except Fault) β) :
    (decodeInt frame >>= k).run offset
      = if offset + 4 ≤ frame.length then (k (intAt frame offset)).run (offset + 4)
        else .error .outOfBounds := by
  rw [decodeInt, bind_assoc, run_readBytes]
  simp only [pure_bind]
  rfl

/-- A negative length does not get to a read. -/
theorem run_decodeString (k : List UInt8 → StateT ℕ (Except Fault) β) :
    (decodeString frame >>= k).run offset
      = if offset + 4 ≤ frame.length then
          if (intAt frame offset).toInt < 0 then .error .lengthError
          else if offset + 4 + (intAt frame offset).toNat ≤ frame.length then
            (k ((frame.drop (offset + 4)).take (intAt frame offset).toNat)).run
              (offset + 4 + (intAt frame offset).toNat)
          else .error .outOfBounds
        else .error .outOfBounds := by
  rw [decodeString, bind_assoc, run_decodeInt]
  by_cases hlen : offset + 4 ≤ frame.length
  · rw [if_pos hlen, if_pos hlen]
    cases hsign : (intAt frame offset).msb with
    | true =>
        rw [if_pos (BitVec.toInt_neg_of_msb_true hsign)]
        rfl
    | false =>
        have hpos := BitVec.toInt_nonneg_of_msb_false hsign
        rw [if_neg (Int.not_lt_of_ge hpos)]
        exact run_readBytes frame (offset + 4) _ k
  · rw [if_neg hlen, if_neg hlen]

/-- The record at `offset`. -/
def nodeAt : NodeInfo :=
  ⟨intAt frame offset, (frame.drop (offset + 8)).take (ipLength frame offset).toNat,
    (intAt frame (offset + 8 + (ipLength frame offset).toNat)).setWidth 16⟩

theorem run_decodeNodeInfo (k : NodeInfo → StateT ℕ (Except Fault) β) :
    (decodeNodeInfo frame >>= k).run offset
      = if offset + 8 ≤ frame.length then
          if (ipLength frame offset).toInt < 0 then .error .lengthError
          else if recordEnd frame offset ≤ frame.length then
            (k (nodeAt frame offset)).run (recordEnd frame offset)
          else .error .outOfBounds
        else .error .outOfBounds := by
  have hend : offset + 8 + (ipLength frame offset).toNat + 4 = recordEnd frame offset := by
    rw [recordEnd]
    omega
  simp only [decodeNodeInfo, bind_assoc, pure_bind]
  rw [run_decodeInt]
  by_cases hrank : offset + 4 ≤ frame.length
  · rw [if_pos hrank, run_decodeString]
    show (if offset + 8 ≤ frame.length then _ else _) = _
    by_cases hlength : offset + 8 ≤ frame.length
    · rw [if_pos hlength, if_pos hlength]
      show (if (ipLength frame offset).toInt < 0 then _ else _) = _
      by_cases hneg : (ipLength frame offset).toInt < 0
      · rw [if_pos hneg, if_pos hneg]
      · rw [if_neg hneg, if_neg hneg]
        show (if offset + 8 + (ipLength frame offset).toNat ≤ frame.length then _ else _) = _
        by_cases hip : offset + 8 + (ipLength frame offset).toNat ≤ frame.length
        · rw [if_pos hip, run_decodeInt]
          show (if offset + 8 + (ipLength frame offset).toNat + 4 ≤ frame.length then
            (k (nodeAt frame offset)).run (offset + 8 + (ipLength frame offset).toNat + 4)
            else _) = _
          rw [hend]
        · -- the string is cut off, and so is the port behind it
          rw [if_neg hip, if_neg (by omega)]
    · rw [if_neg hlength, if_neg hlength]
  · rw [if_neg hrank, if_neg (by omega)]

end Decoders

/-! ### When the decoders stay inside -/

/-- What is done with a result does not read. -/
theorem map_ne_outOfBounds {α β : Type} (r : Except Fault α) (f : α → β) :
    r.map f ≠ .error .outOfBounds ↔ r ≠ .error .outOfBounds := by
  cases r with
  | error fault => simp [Except.map]
  | ok a => simp [Except.map]

variable {frame : List UInt8}

/-- One record and what is decoded behind it. -/
theorem decodeNodeInfo_inside_iff {β : Type} {offset : ℕ} {P : Prop}
    {k : NodeInfo → StateT ℕ (Except Fault) β}
    (hk : (k (nodeAt frame offset)).run (recordEnd frame offset) ≠ .error .outOfBounds ↔ P) :
    (decodeNodeInfo frame >>= k).run offset ≠ .error .outOfBounds
      ↔ RecordInside frame offset ∧ (0 ≤ (ipLength frame offset).toInt → P) := by
  rw [run_decodeNodeInfo, RecordInside]
  by_cases hlength : offset + 8 ≤ frame.length
  · rw [if_pos hlength]
    rcases lt_or_ge (ipLength frame offset).toInt 0 with hneg | hpos
    · -- the constructor of the string throws
      simp [hneg, hlength, Int.not_le_of_gt hneg]
    · rw [if_neg (Int.not_lt_of_ge hpos)]
      by_cases hend : recordEnd frame offset ≤ frame.length
      · rw [if_pos hend, hk]
        simp [hlength, hend, hpos]
      · simp [hend, hpos]
  · simp [hlength]

/-- The loop of `RecvAllNodes` stays inside if and only if the records are. -/
theorem decodeNodes_inside_iff (count offset : ℕ) :
    (decodeNodes count frame).run offset ≠ .error .outOfBounds
      ↔ RecordsInside frame count offset := by
  induction count generalizing offset with
  | zero =>
      refine iff_of_true ?_ trivial
      show Except.ok _ ≠ Except.error _
      simp
  | succ count ih =>
      refine decodeNodeInfo_inside_iff ?_
      rw [← ih]
      exact map_ne_outOfBounds ((decodeNodes count frame).run (recordEnd frame offset)) _

theorem decodeAllNodes_inside_iff :
    (decodeAllNodes frame).run 0 ≠ .error .outOfBounds ↔ TableInside frame := by
  rw [decodeAllNodes, run_decodeInt, TableInside, Nat.zero_add]
  by_cases hcount : 4 ≤ frame.length
  · rw [if_pos hcount]
    cases hsign : (intAt frame 0).msb with
    | true =>
        -- `resize` throws
        have hneg := BitVec.toInt_neg_of_msb_true hsign
        refine iff_of_true ?_ ⟨hcount, fun hpos => absurd hneg (Int.not_lt_of_ge hpos)⟩
        show Except.error _ ≠ Except.error _
        simp
    | false =>
        have hpos := BitVec.toInt_nonneg_of_msb_false hsign
        simpa [hcount, hpos] using decodeNodes_inside_iff _ 4
  · simp [hcount]

/-- **The decoders never read outside the frame if and only if the frame has room for
what it announces**, up to the first negative length or count. -/
theorem decode_inside_iff (frame : List UInt8) :
    (recvNodeInfo (some frame) ≠ .error .outOfBounds ↔ RecordInside frame 0) ∧
      (recvAllNodes (some frame) ≠ .error .outOfBounds ↔ TableInside frame) := by
  constructor
  · rw [recvNodeInfo, map_ne_outOfBounds, ← bind_pure (decodeNodeInfo frame),
      decodeNodeInfo_inside_iff (P := True)]
    · simp
    · refine iff_of_true ?_ trivial
      show Except.ok _ ≠ Except.error _
      simp
  · rw [recvAllNodes, map_ne_outOfBounds]
    exact decodeAllNodes_inside_iff

/-- `RecvAll` takes an empty frame, and there is no rank or count in it. -/
theorem decode_empty :
    recvAll (sendAll []) = some ([], []) ∧
      ¬ ∀ frame : List UInt8, recvNodeInfo (some frame) ≠ .error .outOfBounds ∧
        recvAllNodes (some frame) ≠ .error .outOfBounds := by
  constructor
  · rw [← List.append_nil (sendAll [])]
    exact recvAll_sendAll (by decide) []
  · intro h
    exact (h []).1 rfl

end MiniCcl.Bootstrap
