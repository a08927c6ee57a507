/-
MiniCcl/NodeCodec.lean

The encoding of the control plane: the integers, strings and `NodeInfo`s of
`utils.cpp`, the node table of `bootstrap.cpp`, and the length prefix of `SendAll`
and `RecvAll`.

An `int` is a bit vector of 32 bits, and a `std::string` is a list of bytes.  A decoder
goes through a buffer by an offset.  It can read beyond the end of the buffer, and it
can ask for a string or a vector of negative length: these are the faults.

What an encoder appends to a buffer is what its decoder reads, wherever in a buffer it
is (`Decodes`), and decoders that run one after the other read what was appended one
after the other (`Decodes.bind`).
-/
import MiniCcl.Endian
import Mathlib.Data.BitVec

namespace MiniCcl

structure NodeInfo where
  rank : BitVec 32
  ipAddr : List UInt8
  dataPort : BitVec 16
  deriving DecidableEq, Repr

/-- The entries of a vector that has been resized. -/
def NodeInfo.default : NodeInfo := ⟨0, [], 0⟩

/-- What can go wrong in a decoder: a read at or beyond the end of the buffer, or the
`std::length_error` of a negative length. -/
inductive Fault
  | outOfBounds
  | lengthError
  deriving DecidableEq, Repr

/-- A function that reads a buffer from an offset on and advances the offset. -/
abbrev Decoder (α : Type) := List UInt8 → StateT ℕ (Except Fault) α

namespace Utils

/-! ### Encoders and decoders -/

def encodeInt (buffer : List UInt8) (value : BitVec 32) : List UInt8 :=
  buffer ++ toBigEndian 4 value.toNat

/-- The next `length` bytes. -/
def readBytes (length : ℕ) : Decoder (List UInt8) := fun buffer offset =>
  if offset + length ≤ buffer.length then
    .ok ((buffer.drop offset).take length, offset + length)
  else .error .outOfBounds

def decodeInt : Decoder (BitVec 32) := fun buffer => do
  let netValue ← readBytes 4 buffer
  return BitVec.ofNat 32 (ofBigEndian netValue)

def encodeString (buffer : List UInt8) (str : List UInt8) : List UInt8 :=
  encodeInt buffer (BitVec.ofNat 32 str.length) ++ str

def decodeString : Decoder (List UInt8) := fun buffer => do
  let length ← decodeInt buffer
  if length.msb then throw .lengthError else readBytes length.toNat buffer

def encodeNodeInfo (buffer : List UInt8) (node : NodeInfo) : List UInt8 :=
  encodeInt (encodeString (encodeInt buffer node.rank) node.ipAddr) (node.dataPort.setWidth 32)

def decodeNodeInfo : Decoder NodeInfo := fun buffer => do
  let rank ← decodeInt buffer
  let ipAddr ← decodeString buffer
  let dataPort ← decodeInt buffer
  return ⟨rank, ipAddr, dataPort.setWidth 16⟩

/-- The buffer of `BroadcastAllNodes`. -/
def encodeAllNodes (nodes : List NodeInfo) : List UInt8 :=
  nodes.foldl encodeNodeInfo (encodeInt [] (BitVec.ofNat 32 nodes.length))

/-- The loop of `RecvAllNodes`. -/
def decodeNodes : ℕ → Decoder (List NodeInfo)
  | 0 => fun _ => return []
  | numNodes + 1 => fun buffer => do
      let node ← decodeNodeInfo buffer
      let nodes ← decodeNodes numNodes buffer
      return node :: nodes

def decodeAllNodes : Decoder (List NodeInfo) := fun buffer => do
  let numNodes ← decodeInt buffer
  if numNodes.msb then throw .lengthError else decodeNodes numNodes.toNat buffer

/-! ### Framing -/

/-- What `SendAll` writes to the stream: 4 bytes of data size, then the data. -/
def sendAll (data : List UInt8) : List UInt8 := toBigEndian 4 data.length ++ data

/-- `RecvAll`, once the stream has a whole frame: its data and the rest of the stream. -/
def recvAll (stream : List UInt8) : Option (List UInt8 × List UInt8) :=
  if 4 ≤ stream.length then
    let size := ofBigEndian (stream.take 4)
    if size ≤ (stream.drop 4).length then
      some ((stream.drop 4).take size, (stream.drop 4).drop size)
    else none
  else none

theorem recvAll_sendAll {data : List UInt8} (h : data.length < 2 ^ 32) (rest : List UInt8) :
    recvAll (sendAll data ++ rest) = some (data, rest) := by
  have hlen : (toBigEndian 4 data.length).length = 4 := length_toBigEndian 4 data.length
  have hsize : ofBigEndian (toBigEndian 4 data.length) = data.length := by
    rw [ofBigEndian_toBigEndian]
    exact Nat.mod_eq_of_lt h
  have htake : (sendAll data ++ rest).take 4 = toBigEndian 4 data.length := by
    rw [sendAll, List.append_assoc, List.take_left' hlen]
  have hdrop : (sendAll data ++ rest).drop 4 = data ++ rest := by
    rw [sendAll, List.append_assoc, List.drop_left' hlen]
  unfold recvAll
  rw [if_pos, htake, hdrop, hsize, if_pos, List.take_left, List.drop_left]
  · rw [List.length_append]
    exact Nat.le_add_right _ _
  · rw [sendAll, List.length_append, List.length_append, hlen, Nat.add_assoc]
    exact Nat.le_add_right _ _

/-! ### Round trips -/

/-- Wherever the bytes are in a buffer, the decoder reads `a` and goes to their end. -/
def Decodes {α : Type} (d : Decoder α) (bytes : List UInt8) (a : α) : Prop :=
  ∀ pre post : List UInt8,
    (d (pre ++ bytes ++ post)).run pre.length = .ok (a, (pre ++ bytes).length)

theorem Decodes.bind {α β : Type} {d : Decoder α} {k : α → Decoder β} {bytes bytes' : List UInt8}
    {a : α} {b : β} (h : Decodes d bytes a) (h' : Decodes (k a) bytes' b) :
    Decodes (fun buffer => d buffer >>= fun a => k a buffer) (bytes ++ bytes') b := by
  intro pre post
  have hfirst := h pre (bytes' ++ post)
  have hsecond := h' (pre ++ bytes) post
  rw [← List.append_assoc] at hfirst
  rw [StateT.run_bind, ← List.append_assoc, hfirst]
  exact hsecond

theorem decodes_pure {α : Type} (a : α) : Decodes (fun _ => pure a) [] a := by
  intro pre post
  rw [List.append_nil]
  rfl

theorem Decodes.map {α β : Type} {d : Decoder α} {bytes : List UInt8} {a : α}
    (h : Decodes d bytes a) (f : α → β) :
    Decodes (fun buffer => d buffer >>= fun a => pure (f a)) bytes (f a) := by
  have hmap := h.bind (k := fun a _ => pure (f a)) (decodes_pure (f a))
  rwa [List.append_nil] at hmap

/-- The same bytes do not stand for two values. -/
theorem Decodes.unique {α : Type} {d : Decoder α} {bytes : List UInt8} {a b : α}
    (ha : Decodes d bytes a) (hb : Decodes d bytes b) : a = b := by
  have h : Except.ok (a, _) = Except.ok (b, _) := (ha [] []).symm.trans (hb [] [])
  exact congrArg Prod.fst (Except.ok.inj h)

theorem decodes_readBytes (bytes : List UInt8) : Decodes (readBytes bytes.length) bytes bytes := by
  intro pre post
  have hfit : pre.length + bytes.length ≤ (pre ++ bytes ++ post).length := by
    rw [List.length_append, List.length_append]
    exact Nat.le_add_right _ _
  show (if _ then _ else _) = _
  rw [if_pos hfit, List.append_assoc, List.drop_left, List.take_left, List.length_append]

theorem decodes_int (value : BitVec 32) : Decodes decodeInt (toBigEndian 4 value.toNat) value := by
  have hread := decodes_readBytes (toBigEndian 4 value.toNat)
  rw [length_toBigEndian] at hread
  have hmap := hread.map fun netValue => BitVec.ofNat 32 (ofBigEndian netValue)
  rwa [ofBigEndian_toBigEndian, show 256 ^ 4 = 2 ^ 32 from rfl, Nat.mod_eq_of_lt value.isLt,
    BitVec.ofNat_toNat, BitVec.setWidth_eq] at hmap

/-- A string that is shorter than `2 ^ 31` bytes has a length that is not negative. -/
theorem decodes_string {str : List UInt8} (h : str.length < 2 ^ 31) :
    Decodes decodeString (encodeString [] str) str := by
  have hlt : str.length < 2 ^ 32 := h.trans (by decide)
  have htoNat : (BitVec.ofNat 32 str.length).toNat = str.length :=
    Nat.mod_eq_of_lt hlt
  have hmsb : (BitVec.ofNat 32 str.length).msb = false := by
    rw [BitVec.msb_eq_decide, htoNat]
    exact decide_eq_false (Nat.not_le_of_lt h)
  refine (decodes_int (BitVec.ofNat 32 str.length)).bind (k := fun length buffer =>
    if length.msb then throw .lengthError else readBytes length.toNat buffer) ?_
  simp only [hmsb, htoNat]
  exact decodes_readBytes str

/-- The bytes of a `NodeInfo`. -/
theorem encodeNodeInfo_eq (buffer : List UInt8) (node : NodeInfo) :
    encodeNodeInfo buffer node = buffer ++ (toBigEndian 4 node.rank.toNat ++
      (encodeString [] node.ipAddr ++ toBigEndian 4 (node.dataPort.setWidth 32).toNat)) := by
  simp only [encodeNodeInfo, encodeString, encodeInt, List.append_assoc, List.nil_append]

theorem encodeNodeInfo_append (buffer : List UInt8) (node : NodeInfo) :
    encodeNodeInfo buffer node = buffer ++ encodeNodeInfo [] node := by
  rw [encodeNodeInfo_eq buffer, encodeNodeInfo_eq [], List.nil_append]

theorem length_encodeNodeInfo (node : NodeInfo) :
    (encodeNodeInfo [] node).length = 12 + node.ipAddr.length := by
  simp only [encodeNodeInfo, encodeString, encodeInt, List.length_append, length_toBigEndian,
    List.length_nil]
  omega

theorem decodes_nodeInfo {node : NodeInfo} (h : node.ipAddr.length < 2 ^ 31) :
    Decodes decodeNodeInfo (encodeNodeInfo [] node) node := by
  have hport : (node.dataPort.setWidth 32).setWidth 16 = node.dataPort := by
    rw [BitVec.setWidth_setWidth_of_le _ (by decide), BitVec.setWidth_eq]
  rw [encodeNodeInfo_eq]
  refine (decodes_int node.rank).bind (k := fun rank buffer => do
    let ipAddr ← decodeString buffer
    let dataPort ← decodeInt buffer
    return (⟨rank, ipAddr, dataPort.setWidth 16⟩ : NodeInfo)) ?_
  refine (decodes_string h).bind (k := fun ipAddr buffer => do
    let dataPort ← decodeInt buffer
    return (⟨node.rank, ipAddr, dataPort.setWidth 16⟩ : NodeInfo)) ?_
  have hmap := (decodes_int (node.dataPort.setWidth 32)).map fun dataPort =>
    (⟨node.rank, node.ipAddr, dataPort.setWidth 16⟩ : NodeInfo)
  rwa [hport] at hmap

theorem foldl_encodeNodeInfo (nodes : List NodeInfo) (buffer : List UInt8) :
    nodes.foldl encodeNodeInfo buffer = buffer ++ nodes.flatMap (encodeNodeInfo []) := by
  induction nodes generalizing buffer with
  | nil => exact (List.append_nil _).symm
  | cons node nodes ih =>
      rw [List.foldl_cons, ih, encodeNodeInfo_append, List.flatMap_cons, List.append_assoc]

theorem twelve_mul_length_le (nodes : List NodeInfo) :
    12 * nodes.length ≤ (nodes.flatMap (encodeNodeInfo [])).length := by
  induction nodes with
  | nil => exact Nat.zero_le _
  | cons node nodes ih =>
      rw [List.flatMap_cons, List.length_append, length_encodeNodeInfo, List.length_cons]
      omega

theorem decodes_nodes {nodes : List NodeInfo} (h : ∀ node ∈ nodes, node.ipAddr.length < 2 ^ 31) :
    Decodes (decodeNodes nodes.length) (nodes.flatMap (encodeNodeInfo [])) nodes := by
  induction nodes with
  | nil => exact decodes_pure []
  | cons node nodes ih =>
      have hnodes := ih fun node' hnode' => h node' (List.mem_cons_of_mem node hnode')
      rw [List.flatMap_cons]
      exact (decodes_nodeInfo (h node List.mem_cons_self)).bind (k := fun node buffer => do
        let nodes ← decodeNodes nodes.length buffer
        return node :: nodes) (hnodes.map fun nodes => node :: nodes)

/-- The node table round-trips. -/
theorem decodes_allNodes {nodes : List NodeInfo} (hlen : nodes.length < 2 ^ 31)
    (h : ∀ node ∈ nodes, node.ipAddr.length < 2 ^ 31) :
    Decodes decodeAllNodes (encodeAllNodes nodes) nodes := by
  have hlt : nodes.length < 2 ^ 32 := hlen.trans (by decide)
  have htoNat : (BitVec.ofNat 32 nodes.length).toNat = nodes.length :=
    Nat.mod_eq_of_lt hlt
  have hmsb : (BitVec.ofNat 32 nodes.length).msb = false := by
    rw [BitVec.msb_eq_decide, htoNat]
    exact decide_eq_false (Nat.not_le_of_lt hlen)
  rw [encodeAllNodes, foldl_encodeNodeInfo, encodeInt, List.nil_append]
  refine (decodes_int (BitVec.ofNat 32 nodes.length)).bind (k := fun numNodes buffer =>
    if numNodes.msb then throw .lengthError else decodeNodes numNodes.toNat buffer) ?_
  simp only [hmsb, htoNat]
  exact decodes_nodes h

/-- **The node table is read back wherever it is in a buffer, and no other table has its
bytes.** -/
theorem allNodes_roundTrip {nodes : List NodeInfo} (hlen : nodes.length < 2 ^ 31)
    (h : ∀ node ∈ nodes, node.ipAddr.length < 2 ^ 31) :
    (∀ pre post : List UInt8, (decodeAllNodes (pre ++ encodeAllNodes nodes ++ post)).run pre.length
      = .ok (nodes, (pre ++ encodeAllNodes nodes).length)) ∧
    ∀ nodes' : List NodeInfo, nodes'.length < 2 ^ 31 →
      (∀ node ∈ nodes', node.ipAddr.length < 2 ^ 31) →
      encodeAllNodes nodes = encodeAllNodes nodes' → nodes = nodes' := by
  refine ⟨decodes_allNodes hlen h, ?_⟩
  intro nodes' hlen' h' heq
  have hread := decodes_allNodes hlen h
  rw [heq] at hread
  exact hread.unique (decodes_allNodes hlen' h')

/-- A rank that is negative, an empty string and a string with a zero byte. -/
theorem allNodes_roundTrip_two :
    (decodeAllNodes ([9] ++ encodeAllNodes [⟨-1, [], 65535⟩, ⟨7, [0, 1], 0⟩] ++ [8])).run 1
        = .ok ([⟨-1, [], 65535⟩, ⟨7, [0, 1], 0⟩],
          ([9] ++ encodeAllNodes [⟨-1, [], 65535⟩, ⟨7, [0, 1], 0⟩]).length) ∧
      encodeAllNodes [⟨-1, [], 65535⟩, ⟨7, [0, 1], 0⟩] ≠ encodeAllNodes [⟨7, [], 65535⟩] := by
  have h := @allNodes_roundTrip [⟨-1, [], 65535⟩, ⟨7, [0, 1], 0⟩] (by decide) (by decide)
  refine ⟨h.1 [9] [8], fun heq => ?_⟩
  have hnodes := h.2 [⟨7, [], 65535⟩] (by decide) (by decide) heq
  simp at hnodes

end Utils

end MiniCcl
