/-
MiniCcl/RdmaQpInfo.lean

What two ends of an RDMA connection tell each other: the number of the queue pair, the
address of the port, and the GID that was chosen.

Unlike the node table, a `RdmaQpInfo` is not sent in network byte order: `EncodeQpInfo`
copies the integers as the host has them, and `DecodeQpInfo` copies them back.  So it
arrives as it was sent between hosts of one byte order, and with its integers reversed
otherwise (`decodes_qpInfo`).

`FindBestGidIndex` looks for the last entry of the GID table that is not zero.
-/
import MiniCcl.NodeBounds
import MiniCcl.Rdma

namespace MiniCcl.TransportRdma

/-! ### Byte orders -/

inductive ByteOrder
  | big
  | little
  deriving DecidableEq, Repr

namespace ByteOrder

/-- The `k` bytes of an integer in memory. -/
def bytes : ByteOrder → ℕ → ℕ → List UInt8
  | big, k, v => toBigEndian k v
  | little, k, v => (toBigEndian k v).reverse

/-- The integer that is in memory. -/
def value : ByteOrder → List UInt8 → ℕ
  | big, bs => ofBigEndian bs
  | little, bs => ofBigEndian bs.reverse

@[simp] theorem length_bytes (o : ByteOrder) (k v : ℕ) : (o.bytes k v).length = k := by
  cases o <;> simp [bytes]

theorem value_bytes (o : ByteOrder) (k v : ℕ) : o.value (o.bytes k v) = v % 256 ^ k := by
  cases o <;> simp [bytes, value, ofBigEndian_toBigEndian]

end ByteOrder

/-! ### QP info -/

/-- `ibv_gid`: 16 bytes. -/
abbrev Gid := {raw : List UInt8 // raw.length = 16}

/-- The GID with all bytes zero. -/
def Gid.zero : Gid := ⟨List.replicate 16 0, rfl⟩

/-- `memcpy` of 16 bytes into a GID. -/
def Gid.ofBytes (bs : List UInt8) : Gid :=
  ⟨(bs ++ List.replicate 16 0).take 16, by simp⟩

theorem Gid.ofBytes_raw (gid : Gid) : ofBytes gid.1 = gid :=
  Subtype.ext (List.take_left' gid.2)

/-- QP info to be sent and received. -/
structure RdmaQpInfo where
  qpn : BitVec 32
  lid : BitVec 16
  gid : Gid
  gidIndex : BitVec 32
  deriving DecidableEq

/-- `TransportRdma::EncodeQpInfo` -/
def encodeQpInfo (o : ByteOrder) (qpInfo : RdmaQpInfo) (result : List UInt8) : List UInt8 :=
  result ++ o.bytes 4 qpInfo.qpn.toNat ++ o.bytes 2 qpInfo.lid.toNat ++ qpInfo.gid.1
    ++ o.bytes 4 qpInfo.gidIndex.toNat

/-- `TransportRdma::DecodeQpInfo` -/
def decodeQpInfo (o : ByteOrder) : Decoder RdmaQpInfo := fun data => do
  let qpn ← Utils.readBytes 4 data
  let lid ← Utils.readBytes 2 data
  let gid ← Utils.readBytes 16 data
  let gidIndex ← Utils.readBytes 4 data
  return ⟨BitVec.ofNat 32 (o.value qpn), BitVec.ofNat 16 (o.value lid), Gid.ofBytes gid,
    BitVec.ofNat 32 (o.value gidIndex)⟩

/-- What the bytes of an integer of a host are on another host. -/
def ByteOrder.seen (o o' : ByteOrder) {w : ℕ} (k : ℕ) (v : BitVec w) : BitVec w :=
  BitVec.ofNat w (o'.value (o.bytes k v.toNat))

theorem ByteOrder.seen_self (o : ByteOrder) {w k : ℕ} (hw : 2 ^ w = 256 ^ k) (v : BitVec w) :
    o.seen o k v = v := by
  rw [seen, value_bytes, ← hw, Nat.mod_eq_of_lt v.isLt, BitVec.ofNat_toNat, BitVec.setWidth_eq]

/-- QP info as another host sees it. -/
def RdmaQpInfo.seen (qpInfo : RdmaQpInfo) (o o' : ByteOrder) : RdmaQpInfo :=
  ⟨o.seen o' 4 qpInfo.qpn, o.seen o' 2 qpInfo.lid, qpInfo.gid, o.seen o' 4 qpInfo.gidIndex⟩

theorem RdmaQpInfo.seen_self (qpInfo : RdmaQpInfo) (o : ByteOrder) :
    qpInfo.seen o o = qpInfo := by
  rw [seen, o.seen_self rfl, o.seen_self rfl, o.seen_self rfl]

theorem length_encodeQpInfo (o : ByteOrder) (qpInfo : RdmaQpInfo) (result : List UInt8) :
    (encodeQpInfo o qpInfo result).length = result.length + 26 := by
  simp only [encodeQpInfo, List.length_append, ByteOrder.length_bytes, qpInfo.gid.2]

/-- **QP info arrives as it was sent, up to the byte orders of the hosts**: decoding on a host
of order `o'`, wherever the bytes are in a buffer, gives what this host sees. -/
theorem decodes_qpInfo (o o' : ByteOrder) (qpInfo : RdmaQpInfo) :
    Utils.Decodes (decodeQpInfo o') (encodeQpInfo o qpInfo []) (qpInfo.seen o o') := by
  have hread : ∀ (k v : ℕ), Utils.Decodes (Utils.readBytes k) (o.bytes k v) (o.bytes k v) := by
    intro k v
    have h := Utils.decodes_readBytes (o.bytes k v)
    rwa [ByteOrder.length_bytes] at h
  have hgid : Utils.Decodes (Utils.readBytes 16) qpInfo.gid.1 qpInfo.gid.1 := by
    have h := Utils.decodes_readBytes qpInfo.gid.1
    rwa [qpInfo.gid.2] at h
  let info : List UInt8 → List UInt8 → List UInt8 → List UInt8 → RdmaQpInfo :=
    fun qpn lid gid gidIndex =>
      ⟨BitVec.ofNat 32 (o'.value qpn), BitVec.ofNat 16 (o'.value lid), Gid.ofBytes gid,
        BitVec.ofNat 32 (o'.value gidIndex)⟩
  have hseen : qpInfo.seen o o' = info (o.bytes 4 qpInfo.qpn.toNat) (o.bytes 2 qpInfo.lid.toNat)
      qpInfo.gid.1 (o.bytes 4 qpInfo.gidIndex.toNat) := by
    simp only [info, Gid.ofBytes_raw]
    rfl
  rw [encodeQpInfo, List.nil_append, List.append_assoc, List.append_assoc, hseen]
  refine (hread 4 _).bind (k := fun qpn data => do
    let lid ← Utils.readBytes 2 data
    let gid ← Utils.readBytes 16 data
    let gidIndex ← Utils.readBytes 4 data
    return info qpn lid gid gidIndex) ?_
  refine (hread 2 _).bind (k := fun lid data => do
    let gid ← Utils.readBytes 16 data
    let gidIndex ← Utils.readBytes 4 data
    return info _ lid gid gidIndex) ?_
  refine hgid.bind (k := fun gid data => do
    let gidIndex ← Utils.readBytes 4 data
    return info _ _ gid gidIndex) ?_
  exact (hread 4 _).map fun gidIndex => info _ _ _ gidIndex

/-- **QP info arrives as it was sent exactly between hosts of one byte order.** -/
theorem qpInfo_roundtrip_iff (o o' : ByteOrder) :
    (∀ qpInfo, Utils.Decodes (decodeQpInfo o') (encodeQpInfo o qpInfo []) qpInfo) ↔ o = o' := by
  constructor
  · intro h
    let one : RdmaQpInfo := ⟨1, 0, Gid.zero, 0⟩
    have hseen := (decodes_qpInfo o o' one).unique (h one)
    have hqpn : o.seen o' 4 (1 : BitVec 32) = 1 := congrArg RdmaQpInfo.qpn hseen
    cases o <;> cases o' <;> first | rfl | exact absurd hqpn (by decide)
  · rintro rfl qpInfo
    have h := decodes_qpInfo o o qpInfo
    rwa [RdmaQpInfo.seen_self] at h

/-! ### GIDs -/

/-- `ibv_query_gid` of the 16 entries: `none` if it fails. -/
abbrev GidTable := ℕ → Option Gid

/-- The loop of `FindBestGidIndex`: `best` is the entry found so far. -/
def findBestGid (queryGid : GidTable) (best : Option (ℕ × Gid)) (idx : ℕ) : Option (ℕ × Gid) :=
  match queryGid idx with
  | some gid => if gid = Gid.zero then best else some (idx, gid)
  | none => best

/-- `TransportRdma::FindBestGidIndex`: the index, and the GID that is written. -/
def findBestGidIndex (queryGid : GidTable) : ℕ × Gid :=
  match (List.range 16).foldl (findBestGid queryGid) none with
  | some best => best
  | none => (0, (queryGid 0).getD Gid.zero)

section FindBest

variable (queryGid : GidTable)

/-- Entry `idx` can be queried and is not zero. -/
def GidTable.Valid (idx : ℕ) : Prop := ∃ gid, queryGid idx = some gid ∧ gid ≠ Gid.zero

theorem findBestGid_eq (best : Option (ℕ × Gid)) (idx : ℕ) :
    (∃ gid, queryGid idx = some gid ∧ gid ≠ Gid.zero ∧
        findBestGid queryGid best idx = some (idx, gid)) ∨
      ¬ GidTable.Valid queryGid idx ∧ findBestGid queryGid best idx = best := by
  unfold findBestGid
  cases hgid : queryGid idx with
  | none => exact .inr ⟨fun ⟨gid, h, _⟩ => by simp [hgid] at h, rfl⟩
  | some gid =>
      by_cases hzero : gid = Gid.zero
      · refine .inr ⟨fun ⟨gid', h, hne⟩ => ?_, if_pos hzero⟩
        rw [hgid] at h
        exact hne ((Option.some.inj h).symm.trans hzero)
      · exact .inl ⟨gid, rfl, hzero, if_neg hzero⟩

/-- The last valid entry below `k`, if there is one. -/
theorem foldl_findBestGid (k : ℕ) :
    (∃ idx gid, (List.range k).foldl (findBestGid queryGid) none = some (idx, gid) ∧ idx < k ∧
        queryGid idx = some gid ∧ gid ≠ Gid.zero ∧
        ∀ j < k, idx < j → ¬ GidTable.Valid queryGid j) ∨
      (List.range k).foldl (findBestGid queryGid) none = none ∧
        ∀ j < k, ¬ GidTable.Valid queryGid j := by
  induction k with
  | zero => exact .inr ⟨rfl, fun j hj => absurd hj j.not_lt_zero⟩
  | succ k ih =>
      rw [List.range_succ, List.foldl_append, List.foldl_cons, List.foldl_nil]
      rcases findBestGid_eq queryGid ((List.range k).foldl (findBestGid queryGid) none) k with
        ⟨gid, hgid, hne, hbest⟩ | ⟨hinvalid, hbest⟩
      · exact .inl ⟨k, gid, hbest, k.lt_succ_self, hgid, hne, fun j hj hkj => by omega⟩
      · rw [hbest]
        rcases ih with ⟨idx, gid, hfold, hlt, hgid, hne, hlast⟩ | ⟨hfold, hnone⟩
        · refine .inl ⟨idx, gid, hfold, hlt.trans k.lt_succ_self, hgid, hne, fun j hj hij => ?_⟩
          rcases Nat.lt_succ_iff_lt_or_eq.mp hj with hj | rfl
          · exact hlast j hj hij
          · exact hinvalid
        · refine .inr ⟨hfold, fun j hj => ?_⟩
          rcases Nat.lt_succ_iff_lt_or_eq.mp hj with hj | rfl
          · exact hnone j hj
          · exact hinvalid

/-- The index is that of the last valid entry, with the GID there; without a valid entry it
is 0. -/
theorem findBestGidIndex_spec :
    (queryGid (findBestGidIndex queryGid).1 = some (findBestGidIndex queryGid).2 ∧
        (findBestGidIndex queryGid).2 ≠ Gid.zero ∧
        ∀ j < 16, (findBestGidIndex queryGid).1 < j → ¬ GidTable.Valid queryGid j) ∨
      (∀ j < 16, ¬ GidTable.Valid queryGid j) ∧
        findBestGidIndex queryGid = (0, Gid.zero) := by
  unfold findBestGidIndex
  rcases foldl_findBestGid queryGid 16 with ⟨idx, gid, hfold, -, hgid, hne, hlast⟩ | ⟨hfold, hnone⟩
  · rw [hfold]
    exact .inl ⟨hgid, hne, hlast⟩
  · rw [hfold]
    refine .inr ⟨hnone, Prod.ext rfl ?_⟩
    show (queryGid 0).getD Gid.zero = Gid.zero
    cases hgid : queryGid 0 with
    | none => rfl
    | some gid =>
        by_contra hne
        exact hnone 0 (by decide) ⟨gid, hgid, hne⟩

end FindBest

end MiniCcl.TransportRdma
