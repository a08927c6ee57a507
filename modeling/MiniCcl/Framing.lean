/-
MiniCcl/Framing.lean

`SendAll` and `RecvAll` of `utils.cpp` call by call, over a stream that takes and gives
bytes in parts of any size.

The control plane counts on what `Utils.sendAll` and `Utils.recvAll` say about whole
frames.  Here these are a self-delimiting code (`code`), and the loops are shown to
write and to read its frames, wherever the stream is cut.
-/
import MiniCcl.Sockets
import MiniCcl.NodeCodec

namespace MiniCcl.Framing

open ByteStream Sockets

/-! ### The two functions -/

/-- The size is sent in one call, and the data after it. -/
def sendAll (data : List UInt8) : Sending :=
  .ask (toBigEndian 4 data.length) fun
    | some 4 => sendLoop data 0
    | _ => .ret false

/-- `std::vector::resize`. -/
def resize (buffer : List UInt8) (size : ℕ) : List UInt8 :=
  buffer.take size ++ List.replicate (size - buffer.length) 0

def recvAll (buffer : List UInt8) : Receiving :=
  .ask 4 fun
    | some netSize =>
        if netSize.length = 4 then
          if ofBigEndian netSize = 0 then .ret (true, [])
          else recvLoop (ofBigEndian netSize) 0 (resize buffer (ofBigEndian netSize))
        else .ret (false, buffer)
    | none => .ret (false, buffer)

/-- The overload for strings goes through a vector of its own. -/
def recvAllString (str : List UInt8) : Receiving :=
  (recvAll []).map fun r => (r.1, if r.1 then r.2 else str)

/-- What `RecvAll` is called with. -/
inductive Destination
  | vector (buffer : List UInt8)
  | string (str : List UInt8)
  deriving DecidableEq, Repr

def Destination.recvAll : Destination → Receiving
  | .vector buffer => Framing.recvAll buffer
  | .string str => recvAllString str

/-! ### Frames -/

theorem recvAll_frame {netSize body : List UInt8} (hsize : netSize.length = 4)
    (hbody : body.length = ofBigEndian netSize) :
    Utils.recvAll (netSize ++ body) = some (body, []) := by
  have htake : (netSize ++ body).take 4 = netSize := List.take_left' hsize
  have hdrop : (netSize ++ body).drop 4 = body := List.drop_left' hsize
  unfold Utils.recvAll
  rw [if_pos (by rw [List.length_append]; omega), htake, hdrop, if_pos hbody.ge]
  simp [← hbody]

theorem recvAll_append {bs data rest : List UInt8} (bs' : List UInt8)
    (h : Utils.recvAll bs = some (data, rest)) :
    Utils.recvAll (bs ++ bs') = some (data, rest ++ bs') := by
  unfold Utils.recvAll at h
  split at h
  case isFalse => cases h
  case isTrue hlen =>
    simp only at h
    split at h
    case isFalse => cases h
    case isTrue hsize =>
      cases h
      unfold Utils.recvAll
      have htake : (bs ++ bs').take 4 = bs.take 4 := List.take_append_of_le_length hlen
      have hdrop : (bs ++ bs').drop 4 = bs.drop 4 ++ bs' := List.drop_append_of_le_length hlen
      rw [if_pos (by rw [List.length_append]; omega), htake, hdrop,
        if_pos (by rw [List.length_append]; omega), List.take_append_of_le_length hsize,
        List.drop_append_of_le_length hsize]

/-- The frames of messages whose size fits in the prefix. -/
def code : Code (List UInt8) UInt8 where
  encode := Utils.sendAll
  decode := Utils.recvAll
  Fits data := data.length < 2 ^ 32
  decode_encode rest h := Utils.recvAll_sendAll h rest
  decode_append := recvAll_append

/-! ### One call -/

/-- `SendAll` writes the frame from its start on, and all of it if it returns true. -/
theorem sendAll_moves {data bs : List UInt8} {p : Sending}
    (h : Interaction.Moves Sends (sendAll data) bs p) :
    bs <+: Utils.sendAll data ∧ (p = .ret true → bs = Utils.sendAll data) := by
  have hlen : (toBigEndian 4 data.length).length = 4 := length_toBigEndian 4 _
  rcases h.of_ask with ⟨rfl, rfl⟩ | ⟨a, bs₁, bs₂, ha, hrest, rfl⟩
  · exact ⟨List.nil_prefix, fun hret => by simp at hret⟩
  · -- the answer to the prefix decides whether the data follows
    match a, ha with
    | none, hnone =>
        obtain ⟨rfl, rfl⟩ := hrest.of_ret
        rw [show bs₁ = [] from hnone]
        exact ⟨List.nil_prefix, fun hret => by simp at hret⟩
    | some n, ⟨hle, hbs⟩ =>
        by_cases hn : n = 4
        · subst hn
          have hstate := SendState.of_moves hrest
          rw [List.take_of_length_le hlen.le] at hbs
          rw [hbs]
          refine ⟨List.prefix_append_right_inj _ |>.mpr hstate.isPrefix, ?_⟩
          rintro rfl
          rw [hstate.eq_of_true]
          rfl
        · obtain ⟨rfl, rfl⟩ : bs₂ = [] ∧ p = .ret false := by
            split at hrest
            · exact absurd (Option.some.inj ‹_›) hn
            · exact hrest.of_ret
          rw [List.append_nil, hbs]
          exact ⟨(List.take_prefix ..).trans (List.prefix_append ..), fun hret => by simp at hret⟩

/-- If nothing is cut, `SendAll` returns true. -/
theorem sendAll_all (data : List UInt8) :
    Interaction.Moves Sends (sendAll data) (Utils.sendAll data) (.ret true) := by
  have hlen : (toBigEndian 4 data.length).length = 4 := length_toBigEndian 4 _
  have hsize : Sends (toBigEndian 4 data.length) (some 4) (toBigEndian 4 data.length) :=
    ⟨hlen.ge, (List.take_of_length_le hlen.le).symm⟩
  exact (Interaction.Moves.answer hsize rfl).trans (sendLoop_all data)

/-- `RecvAll` into a buffer has received `bs`, and `p` is what it does next. -/
inductive RecvAllState (buffer : List UInt8) : List UInt8 → Receiving → Prop
  | start : RecvAllState buffer [] (recvAll buffer)
  | noSize {bs : List UInt8} (h : bs.length < 4) : RecvAllState buffer bs (.ret (false, buffer))
  | empty {netSize : List UInt8} (h : netSize.length = 4) (hsize : ofBigEndian netSize = 0) :
      RecvAllState buffer netSize (.ret (true, []))
  | body {netSize bs : List UInt8} {p : Receiving} (h : netSize.length = 4)
      (hstate : RecvState (resize buffer (ofBigEndian netSize)) bs p) :
      RecvAllState buffer (netSize ++ bs) p

@[simp] theorem length_resize (buffer : List UInt8) (size : ℕ) :
    (resize buffer size).length = size := by
  rw [resize, List.length_append, List.length_take, List.length_replicate]
  omega

namespace RecvAllState

variable {buffer bs : List UInt8} {p : Receiving}

theorem of_moves (h : Interaction.Moves Recvs (recvAll buffer) bs p) :
    RecvAllState buffer bs p := by
  rcases h.of_ask with ⟨rfl, rfl⟩ | ⟨a, bs₁, bs₂, ha, hrest, rfl⟩
  · exact .start
  · match a, ha with
    | none, hnone =>
        obtain ⟨rfl, rfl⟩ := hrest.of_ret
        rw [show bs₁ = [] from hnone]
        exact .noSize (by decide)
    | some netSize, ⟨hle, hbs⟩ =>
        subst hbs
        simp only at hrest
        split at hrest
        case isFalse hlen =>
          obtain ⟨rfl, rfl⟩ := hrest.of_ret
          rw [List.append_nil]
          exact .noSize (by omega)
        case isTrue hlen =>
          split at hrest
          case isTrue hsize =>
            obtain ⟨rfl, rfl⟩ := hrest.of_ret
            rw [List.append_nil]
            exact .empty hlen hsize
          case isFalse hsize =>
            refine .body hlen (RecvState.of_moves ?_)
            rwa [length_resize]

/-- Once `RecvAll` has the size, it goes on with the data. -/
theorem recvAll_size (buffer : List UInt8) {data : List UInt8} (h : data.length < 2 ^ 32) :
    Interaction.Moves Recvs (recvAll buffer) (toBigEndian 4 data.length)
      (if data.length = 0 then .ret (true, [])
        else recvLoop data.length 0 (resize buffer data.length)) := by
  have hlen : (toBigEndian 4 data.length).length = 4 := length_toBigEndian 4 _
  have hvalue : ofBigEndian (toBigEndian 4 data.length) = data.length := by
    rw [ofBigEndian_toBigEndian]
    exact Nat.mod_eq_of_lt h
  have hsize : Recvs 4 (some (toBigEndian 4 data.length)) (toBigEndian 4 data.length) :=
    ⟨hlen.le, rfl⟩
  refine Interaction.Moves.answer hsize ?_
  simp only [hlen, hvalue, if_true]

/-- If nothing is cut, `RecvAll` receives a whole frame and returns true. -/
theorem recvAll_all (buffer : List UInt8) {data : List UInt8} (h : data.length < 2 ^ 32) :
    Interaction.Moves Recvs (recvAll buffer) (Utils.sendAll data) (.ret (true, data)) := by
  refine (recvAll_size buffer h).trans ?_
  split
  case isTrue hempty =>
    obtain rfl : data = [] := List.length_eq_zero_iff.mp hempty
    exact .start
  case isFalse =>
    have hresize := length_resize buffer data.length
    have hall := RecvState.recvLoop_all hresize.symm
    rwa [hresize] at hall

/-- When `RecvAll` returns true, it has received one whole frame. -/
theorem of_true {data : List UInt8} (h : RecvAllState buffer bs (.ret (true, data))) :
    Utils.recvAll bs = some (data, []) := by
  generalize hp : Interaction.ret (true, data) = p at h
  cases h with
  | start => cases hp
  | noSize _ => cases hp
  | empty hlen hsize =>
      cases hp
      have hframe := @recvAll_frame bs [] hlen hsize.symm
      rwa [List.append_nil] at hframe
  | @body netSize bs _ hlen hstate =>
      subst hp
      obtain ⟨hdata, -, hfull⟩ := hstate.of_ret
      have hbs : bs.length = ofBigEndian netSize := by simpa using hfull.mp rfl
      rw [List.drop_of_length_le (by rw [length_resize, hbs]), List.append_nil] at hdata
      rw [show data = bs from hdata]
      exact recvAll_frame hlen hbs

/-- When the stream ends or fails, `RecvAll` returns false. -/
theorem of_ended {q : ℕ} {k : Option (List UInt8) → Receiving} {a : Option (List UInt8)}
    {bs' : List UInt8} (h : RecvAllState buffer bs (.ask q k)) (ha : Recvs q a bs')
    (hended : Ended a ∨ bs = [] ∧ bs'.length < 4) : ∃ data, k a = .ret (false, data) := by
  generalize hp : Interaction.ask q k = p at h
  cases h with
  | noSize _ => cases hp
  | empty _ _ => cases hp
  | start =>
      obtain ⟨rfl, rfl⟩ := Interaction.ask.inj hp
      refine ⟨buffer, ?_⟩
      match a, ha with
      | none, _ => rfl
      | some netSize, ⟨_, hbs⟩ =>
          have hlen : netSize.length ≠ 4 := by
            rcases hended with (hnone | hzero) | ⟨-, hlt⟩
            · cases hnone
            · simp [Option.some.inj hzero]
            · rw [← hbs]
              exact hlt.ne
          simp [hlen]
  | body hlen hstate =>
      subst hp
      rcases hended with hend | ⟨hnil, -⟩
      · exact ⟨_, ((hstate.of_ask.2.2 ha).2 hend).2⟩
      · rw [List.append_eq_nil_iff.mp hnil |>.1] at hlen
        cases hlen

end RecvAllState

namespace Destination

variable {d : Destination} {bs : List UInt8}

theorem of_true {data : List UInt8} (h : Interaction.Moves Recvs d.recvAll bs (.ret (true, data))) :
    Utils.recvAll bs = some (data, []) := by
  cases d with
  | vector buffer => exact (RecvAllState.of_moves h).of_true
  | string str =>
      obtain ⟨p, hp, hmoves⟩ := h.of_map
      cases p with
      | ask q k => simp [Interaction.map] at hp
      | ret r =>
          obtain ⟨ok, received⟩ := r
          obtain ⟨hok, hdata⟩ := Prod.mk.inj (Interaction.ret.inj hp)
          simp only at hok hdata
          subst hok
          rw [hdata]
          exact (RecvAllState.of_moves hmoves).of_true

theorem of_ended {q : ℕ} {k : Option (List UInt8) → Receiving} {a : Option (List UInt8)}
    {bs' : List UInt8} (h : Interaction.Moves Recvs d.recvAll bs (.ask q k)) (ha : Recvs q a bs')
    (hended : Ended a ∨ bs = [] ∧ bs'.length < 4) : ∃ data, k a = .ret (false, data) := by
  cases d with
  | vector buffer => exact (RecvAllState.of_moves h).of_ended ha hended
  | string str =>
      obtain ⟨p, hp, hmoves⟩ := h.of_map
      cases p with
      | ret r => simp [Interaction.map] at hp
      | ask q₀ k₀ =>
          obtain ⟨rfl, rfl⟩ := Interaction.ask.inj hp
          obtain ⟨data, hdata⟩ := (RecvAllState.of_moves hmoves).of_ended ha hended
          exact ⟨str, by simp [hdata, Interaction.map]⟩

end Destination

/-! ### Messages on a connection -/

/-- One end calls `SendAll` again and again, and the other `RecvAll`. -/
abbrev Connection := Link (List UInt8) (Option ℕ) Bool ℕ (Option (List UInt8))
  (Bool × List UInt8) UInt8

namespace Connection

def start (messages : ℕ → List UInt8) (destinations : ℕ → Destination) : Connection :=
  Link.start (fun k => sendAll (messages k)) (fun k => (destinations k).recvAll)

def Step (messages : ℕ → List UInt8) (destinations : ℕ → Destination) :
    Lts Connection Link.Party :=
  Link.Step Sends Recvs (fun k => sendAll (messages k)) (fun k => (destinations k).recvAll)

/-- Each call is within its own frame, and nothing is lost between the ends. -/
abbrev Valid (messages : ℕ → List UInt8) (destinations : ℕ → Destination)
    (s : Connection) : Prop :=
  Link.Valid Sends Recvs (fun k => sendAll (messages k)) (fun k => (destinations k).recvAll) s

variable {messages : ℕ → List UInt8} {destinations : ℕ → Destination} {s : Connection}

/-- While no `SendAll` has returned false, the stream is that of the messages. -/
theorem Valid.sent (h : Valid messages destinations s) (hsent : ∀ x ∈ s.sender.done, x.1 = true) :
    s.sender.total <+: code.stream messages (s.sender.done.length + 1) := by
  have hreturned : s.sender.returned = code.stream messages s.sender.done.length := by
    apply Session.returned_eq
    intro k x hk
    have hmoves : (sendAll (messages k)).Moves Sends x.2 (.ret x.1) := h.sender.done hk
    have htrue : x.1 = true := hsent x (List.mem_of_getElem? hk)
    exact (sendAll_moves hmoves).2 (htrue ▸ rfl)
  rw [Session.total, hreturned, Code.stream_succ]
  exact (List.prefix_append_right_inj _).mpr (sendAll_moves h.sender.current).1

theorem Valid.take_prefix (h : Valid messages destinations s) (n : ℕ) :
    ((s.receiver.done.take n).map Prod.snd).flatten <+: s.sender.total :=
  (s.receiver.take_returned_prefix n).trans (Link.Valid.receiver_prefix h)

/-- On the stream of the messages the calls that return true return the messages. -/
theorem Valid.received (h : Valid messages destinations s)
    (hmessages : ∀ k, (messages k).length < 2 ^ 32) {n N : ℕ} (hn : n ≤ N)
    (hstream : s.sender.total <+: code.stream messages N)
    (hrecv : ∀ x ∈ s.receiver.done.take n, x.1.1 = true) :
    s.receiver.done.take n = (List.range (s.receiver.done.take n).length).map fun k =>
      ((true, messages k), Utils.sendAll (messages k)) := by
  let pieces := (s.receiver.done.take n).map fun x => (x.1.2, x.2)
  have hlen : pieces.length = (s.receiver.done.take n).length := List.length_map ..
  have hpieces : ∀ x ∈ pieces, code.decode x.2 = some (x.1, []) := by
    intro x hx
    obtain ⟨y, hy, rfl⟩ := List.mem_map.mp hx
    obtain ⟨k, hk⟩ := List.mem_iff_getElem?.mp (List.mem_of_mem_take hy)
    obtain ⟨⟨ok, data⟩, bs⟩ := y
    have hok : ok = true := hrecv _ hy
    subst hok
    exact Destination.of_true (h.receiver.done hk)
  have hsnd : pieces.map Prod.snd = (s.receiver.done.take n).map Prod.snd := by
    simp [pieces, Function.comp_def]
  have heq := code.eq_of_decodes hmessages hpieces
    (hlen.trans_le ((List.length_take_le n _).trans hn))
    (hsnd ▸ (h.take_prefix n).trans hstream)
  rw [hlen] at heq
  apply List.ext_getElem (by simp)
  intro k hk _
  have hk' : k < pieces.length := hlen ▸ hk
  have hpiece : pieces[k] = _ := List.getElem_of_eq heq hk'
  simp only [pieces, List.getElem_map, List.getElem_range, Prod.mk.injEq] at hpiece ⊢
  have hok := hrecv _ (List.getElem_mem hk)
  exact Prod.ext (Prod.ext hok hpiece.1) hpiece.2

/-- The stream ends inside a message, so the call that reads it cannot return true. -/
theorem Valid.truncated (h : Valid messages destinations s)
    (hmessages : ∀ k, (messages k).length < 2 ^ 32) {k : ℕ} {part : List UInt8}
    {r : (Bool × List UInt8) × List UInt8}
    (htotal : s.sender.total = code.stream messages k ++ part)
    (hpart : part <+: Utils.sendAll (messages k)) (hne : part ≠ Utils.sendAll (messages k))
    (hk : s.receiver.done[k]? = some r) (hrecv : ∀ x ∈ s.receiver.done.take k, x.1.1 = true) :
    r.1.1 = false := by
  cases hok : r.1.1 with
  | false => rfl
  | true =>
      obtain ⟨hlt, rfl⟩ := List.getElem?_eq_some_iff.mp hk
      have hstream : s.sender.total <+: code.stream messages (k + 1) := by
        rw [htotal, Code.stream_succ]
        exact (List.prefix_append_right_inj _).mpr hpart
      have htake : s.receiver.done.take (k + 1)
          = s.receiver.done.take k ++ [s.receiver.done[k]] := List.take_succ_eq_append_getElem hlt
      have hrecv' : ∀ x ∈ s.receiver.done.take (k + 1), x.1.1 = true := by
        intro x hx
        rw [htake, List.mem_append, List.mem_singleton] at hx
        rcases hx with hx | rfl
        · exact hrecv x hx
        · exact hok
      -- the whole frame would have been on the stream
      have heq := h.received hmessages le_rfl hstream hrecv'
      have hprefix := h.take_prefix (k + 1)
      rw [heq, List.length_take_of_le (Nat.succ_le_of_lt hlt), List.map_map] at hprefix
      have hwhole : code.stream messages (k + 1) <+: s.sender.total := hprefix
      rw [htotal, Code.stream_succ, List.prefix_append_right_inj] at hwhole
      exact absurd (hpart.eq_of_length_le hwhole.length_le) hne

/-- **The calls of `RecvAll` return the messages of `SendAll`, however the stream takes
and gives them, and each call reads just its own frame.  A call that meets the end of the
stream or a failure within a message returns false.** -/
theorem framing (hmessages : ∀ k, (messages k).length < 2 ^ 32)
    (hs : (Step messages destinations).Reaches (start messages destinations) s) :
    ((∀ x ∈ s.sender.done, x.1 = true) → (∀ x ∈ s.receiver.done, x.1.1 = true) →
      (∀ k r, s.receiver.done[k]? = some r → r.1 = (true, messages k))
      ∧ ∀ k ≤ s.receiver.done.length,
        ((s.receiver.done.take k).map Prod.snd).flatten = code.stream messages k)
    ∧ (∀ k part r, s.sender.total = code.stream messages k ++ part →
      part <+: Utils.sendAll (messages k) → part ≠ Utils.sendAll (messages k) →
      s.receiver.done[k]? = some r → (∀ x ∈ s.receiver.done.take k, x.1.1 = true) →
      r.1.1 = false)
    ∧ ∀ q next result bs, s.receiver.current = .ask q next → Recvs q result bs →
      Ended result ∨ s.receiver.moved = [] ∧ bs.length < 4 →
      ∃ data, next result = .ret (false, data) := by
  have h : Valid messages destinations s := Link.valid_of_reaches hs
  refine ⟨?_, fun k part r htotal hpart hne => h.truncated hmessages htotal hpart hne, ?_⟩
  · intro hsent hrecv
    have hN := Nat.le_max_right (s.sender.done.length + 1) s.receiver.done.length
    have hstream := (h.sent hsent).trans
      (Code.stream_prefix (Nat.le_max_left _ s.receiver.done.length))
    have heq := h.received hmessages hN hstream (by simpa using hrecv)
    rw [List.take_length] at heq
    constructor
    · intro k r hk
      rw [heq, List.getElem?_map] at hk
      obtain ⟨i, hi, rfl⟩ := Option.map_eq_some_iff.mp hk
      obtain ⟨-, rfl⟩ := List.getElem?_eq_some_iff.mp hi
      simp
    · intro k hk
      rw [heq, ← List.map_take, List.take_range, Nat.min_eq_left hk, List.map_map]
      rfl
  · intro q next result bs hcurrent hresult hended
    have hmoves := h.receiver.current
    rw [hcurrent] at hmoves
    exact Destination.of_ended hmoves hresult hended

/-- A message of one byte, and messages of two. -/
def twoMessages : ℕ → List UInt8
  | 0 => [7]
  | _ => [8, 9]

/-- They are received into a buffer that is reused, and the second one in two parts. -/
theorem exists_run_two_messages : ∃ s t,
    (Step twoMessages fun _ => .vector [1]).Reaches (start twoMessages fun _ => .vector [1]) s
      ∧ s.receiver = ⟨[((true, [7]), Utils.sendAll [7])], [0, 0, 0, 2, 8], recvLoop 2 1 [8, 0]⟩
      ∧ (Step twoMessages fun _ => .vector [1]).Reaches s t
      ∧ t.sender = ⟨[(true, Utils.sendAll [7]), (true, Utils.sendAll [8, 9])], [],
          sendAll [8, 9]⟩
      ∧ t.receiver = ⟨[((true, [7]), Utils.sendAll [7]), ((true, [8, 9]),
          Utils.sendAll [8, 9])], [], recvAll [1]⟩ := by
  have hfour : Sends (toBigEndian 4 2) (some 4) [0, 0, 0, 2] := ⟨by decide, by decide⟩
  have hsendSize : Interaction.Moves Sends (sendAll [8, 9]) [0, 0, 0, 2] (sendLoop [8, 9] 0) :=
    .answer hfour rfl
  have hsend : Interaction.Moves Sends (sendLoop [8, 9] 0) [8] (sendLoop [8, 9] 1) :=
    @sendLoop_part [8, 9] 0 1 (by decide) (by decide)
  have hsend' : Interaction.Moves Sends (sendLoop [8, 9] 1) [9] (.ret true) :=
    sendLoop_length [8, 9] ▸ @sendLoop_part [8, 9] 1 1 (by decide) (by decide)
  have hrecvSize : Interaction.Moves Recvs (recvAll [1]) [0, 0, 0, 2] (recvLoop 2 0 [1, 0]) :=
    @RecvAllState.recvAll_size [1] [8, 9] (by decide)
  have hrecv : Interaction.Moves Recvs (recvLoop 2 0 [1, 0]) [8] (recvLoop 2 1 [8, 0]) :=
    @RecvState.recvLoop_part [1, 0] [] [8] (by decide) (by decide)
  have hrecv' : Interaction.Moves Recvs (recvLoop 2 1 [8, 0]) [9] (.ret (true, [8, 9])) :=
    @RecvState.recvLoop_length [1, 0] [8, 9] rfl ▸
      @RecvState.recvLoop_part [1, 0] [8] [9] (by decide) (by decide)
  exact ⟨_, _, Relation.ReflTransGen.trans (Link.reaches_sender_next rfl (sendAll_all [7]))
    (Relation.ReflTransGen.trans
      (Link.reaches_receiver_next rfl (RecvAllState.recvAll_all [1] (by decide)) rfl)
      (Relation.ReflTransGen.trans (Link.reaches_sender rfl (hsendSize.trans hsend))
        (Link.reaches_receiver rfl (hrecvSize.trans hrecv) rfl))), rfl,
    Relation.ReflTransGen.trans (Link.reaches_sender_next rfl hsend')
      (Link.reaches_receiver_next rfl hrecv' rfl), rfl, rfl⟩

/-- If the stream ended within the second message, the call that reads it would fail. -/
theorem framing_two_messages : ∃ s t,
    (Step twoMessages fun _ => .vector [1]).Reaches (start twoMessages fun _ => .vector [1]) s
      ∧ s.receiver.moved = [0, 0, 0, 2, 8]
      ∧ (∃ next data, s.receiver.current = .ask 1 next ∧ next none = .ret (false, data))
      ∧ (Step twoMessages fun _ => .vector [1]).Reaches s t ∧ t.receiver.done.length = 2
      ∧ (∀ k r, t.receiver.done[k]? = some r → r.1 = (true, twoMessages k))
      ∧ t.receiver.returned = code.stream twoMessages 2 := by
  have hmessages : ∀ k, (twoMessages k).length < 2 ^ 32
    | 0 => by decide
    | _ + 1 => (by decide : 2 < 2 ^ 32)
  obtain ⟨s, t, hs, hreceiver, ht, hsender', hreceiver'⟩ := exists_run_two_messages
  refine ⟨s, t, hs, by rw [hreceiver], ?_, ht, by rw [hreceiver']; rfl, ?_⟩
  · obtain ⟨next, hnext⟩ : ∃ next, recvLoop 2 1 [8, 0] = .ask 1 next := by
      rw [recvLoop, if_pos (by decide)]
      exact ⟨_, rfl⟩
    have hcurrent : s.receiver.current = .ask 1 next := by rw [hreceiver, ← hnext]
    obtain ⟨-, -, hended⟩ := framing hmessages hs
    obtain ⟨data, hfalse⟩ := hended 1 next none [] hcurrent rfl (.inl (.inl rfl))
    exact ⟨next, data, hcurrent, hfalse⟩
  · obtain ⟨hall, -, -⟩ := framing hmessages (hs.trans ht)
    obtain ⟨hreceived, hstream⟩ := hall (by simp [hsender']) (by simp [hreceiver'])
    have hreturned := hstream 2 (by rw [hreceiver']; exact le_rfl)
    rw [List.take_of_length_le (by rw [hreceiver']; exact le_rfl)] at hreturned
    exact ⟨hreceived, hreturned⟩

end Connection

end MiniCcl.Framing
