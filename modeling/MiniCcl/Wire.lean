/-
MiniCcl/Wire.lean

A third semantics of a network: streams of bytes with bounded buffers.

Under rendezvous a `Send` waits for its `Recv`, over channels it never waits.  A stream
socket lies between the two.  Its buffer holds `capacity` bytes; a `Send` hands over bytes
as long as there is room and returns when it has handed over all of its own, a `Recv` takes
bytes as they come until it has all that it wants.  How many bytes move at a time is up to
the operating system: `write` and `read` carry any positive number of them.

Steps with different numbers of bytes do not commute, but steps of one byte do
(`unit_commuting`), and every step is a run of those (`exists_unit_run`).  A script that all
processes perform is therefore all there is to know about a network of this kind too, however
small the buffers: no reachable state is stuck, every completed run leaves what the script
computes, and nothing is left in the buffers (`Schedule.wire_rest`).

A byte is named by the cell that it belongs to and its place in it.  A cell arrives with its
first byte; a receiver looks at its cells only when all bytes are there.
-/
import MiniCcl.Schedule

namespace MiniCcl

variable {ι β α : Type*}

/-! ### Bytes -/

/-- A byte: the cell that it belongs to, and its place in it. -/
abbrev Octet (α : Type*) := α × ℕ

/-- The bytes of cells of `w` bytes each. -/
def octets (w : ℕ) (xs : List α) : List (Octet α) :=
  xs.flatMap fun a => (List.range w).map fun k => (a, k)

/-- The cells of which the first byte is there. -/
def cells (bs : List (Octet α)) : List α :=
  bs.filterMap fun b => if b.2 = 0 then some b.1 else none

theorem length_octets (w : ℕ) (xs : List α) : (octets w xs).length = xs.length * w := by
  induction xs with
  | nil => simp [octets]
  | cons a xs ih =>
      rw [octets, List.flatMap_cons, List.length_append]
      refine (congrArg _ ih).trans ?_
      rw [List.length_map, List.length_range, List.length_cons, Nat.succ_mul, Nat.add_comm]

theorem cells_octets {w : ℕ} (hw : 0 < w) (xs : List α) : cells (octets w xs) = xs := by
  obtain ⟨w, rfl⟩ : ∃ k, w = k + 1 := ⟨w - 1, by omega⟩
  induction xs with
  | nil => rfl
  | cons a xs ih =>
      have hcell : cells ((List.range (w + 1)).map fun k => (a, k)) = [a] := by
        simp [cells, List.range_succ_eq_map, List.filterMap_map, Function.comp_def]
      rw [octets, List.flatMap_cons, cells, List.filterMap_append]
      exact congrArg₂ _ hcell ih

/-! ### States and steps -/

/-- A stream from one process to another: how many bytes of the outstanding `Send` have been
handed over, the bytes in the buffer, and those that the outstanding `Recv` has got. -/
structure Conn (α : Type*) where
  sent : ℕ
  buffer : List (Octet α)
  got : List (Octet α)

/-- Nothing sent, nothing under way, nothing received. -/
def Conn.idle : Conn α := ⟨0, [], []⟩

structure Wire (ι β α : Type*) where
  node : ι → Node ι β α
  conn : ι → ι → Conn α

namespace Wire

/-- A local step; `k` bytes from `i` to the buffer, or from the buffer to `j`; the return of
the `Send` from `i` to `j`, or of the `Recv` at `j` from `i`. -/
inductive Label (ι : Type*)
  | act (r : ι)
  | write (i j : ι) (k : ℕ)
  | read (i j : ι) (k : ℕ)
  | sent (i j : ι)
  | received (i j : ι)

/-- One byte at a time. -/
def Label.Unit : Label ι → Prop
  | write _ _ k => k = 1
  | read _ _ k => k = 1
  | _ => True

variable [DecidableEq ι]

/-- The role of process `q` in a step. -/
def Label.role : Label ι → ι → Role ι
  | act r, q => if q = r then .act else .idle
  | write _ _ _, _ => .idle
  | read _ _ _, _ => .idle
  | sent i j, q => if q = i then .xfer (.send, j) else .idle
  | received i j, q => if q = j then .xfer (.recv, i) else .idle

/-- What a step that moves the bytes `bs` does to the stream from `i` to `j`. -/
def Label.flow (bs : List (Octet α)) : Label ι → ι → ι → Conn α → Conn α
  | act _, _, _, c => c
  | write i j _, i', j', c =>
      if i' = i ∧ j' = j then ⟨c.sent + bs.length, c.buffer ++ bs, c.got⟩ else c
  | read i j _, i', j', c =>
      if i' = i ∧ j' = j then ⟨c.sent, c.buffer.drop bs.length, c.got ++ bs⟩ else c
  | sent i j, i', j', c => if i' = i ∧ j' = j then ⟨0, c.buffer, c.got⟩ else c
  | received i j, i', j', c => if i' = i ∧ j' = j then ⟨c.sent, c.buffer, []⟩ else c

/-- The bytes of the outstanding `Send` from `i` to `j`. -/
def data? (s : Wire ι β α) (i j : ι) : Option (List (Octet α)) :=
  ((s.node i).find (.send, j)).map fun x => octets x.width ((s.node i).mem.read x.slice)

/-- The bytes that a step moves: the next ones of the `Send`, if there is room for them; the
first ones of the buffer, if the `Recv` still wants as many; all that the `Recv` has got. -/
def Payload (capacity : ℕ) (s : Wire ι β α) : Label ι → List (Octet α) → Prop
  | .act _, bs => bs = []
  | .write i j k, bs => ∃ data, s.data? i j = some data ∧
      bs = (data.drop (s.conn i j).sent).take k ∧ bs.length = k ∧ 0 < k ∧
      (s.conn i j).buffer.length + k ≤ capacity
  | .read i j k, bs => ∃ x, (s.node j).find (.recv, i) = some x ∧
      bs = (s.conn i j).buffer.take k ∧ bs.length = k ∧ 0 < k ∧
      (s.conn i j).got.length + k ≤ x.bytes
  | .sent i j, bs => bs = [] ∧ ∃ data, s.data? i j = some data ∧ (s.conn i j).sent = data.length
  | .received i j, bs => bs = (s.conn i j).got ∧
      ∃ x, (s.node j).find (.recv, i) = some x ∧ bs.length = x.bytes

variable [DecidableEq β]

/-- One step: every process plays its role and the streams follow. -/
def step (capacity : ℕ) : Lts (Wire ι β α) (Label ι) := fun s a t =>
  ∃ bs, Payload capacity s a bs ∧
    (∀ q, (s.node q).play (cells bs) (a.role q) = some (t.node q)) ∧
    ∀ i j, t.conn i j = a.flow bs i j (s.conn i j)

/-- One step that moves one byte at most. -/
def unitStep (capacity : ℕ) : Lts (Wire ι β α) (Label ι) := fun s a t =>
  step capacity s a t ∧ a.Unit

/-- All processes at their first instruction, nothing under way. -/
def init (P : ι → Prog ι β α) (m : ι → Mem β α) : Wire ι β α :=
  ⟨start P m, fun _ _ => .idle⟩

/-! ### Steps of one byte commute -/

omit [DecidableEq β] in
theorem Label.role_ne {a b : Label ι} (hab : a ≠ b) {q : ι}
    (hq : a.role q = b.role q) : a.role q = .idle := by
  cases a <;> cases b <;> simp only [role] at hq ⊢ <;> split_ifs at hq ⊢ <;> simp_all

omit [DecidableEq β] in
theorem Label.eq_sent {a : Label ι} {i j : ι} (h : a.role i = .xfer (.send, j)) :
    a = .sent i j := by
  cases a with
  | act r =>
      rw [role] at h
      split_ifs at h
  | write => cases h
  | read => cases h
  | sent i' j' =>
      rw [role] at h
      split_ifs at h with hi
      cases h
      rw [hi]
  | received i' j' =>
      rw [role] at h
      split_ifs at h
      cases h

omit [DecidableEq β] in
theorem Label.eq_received {a : Label ι} {i j : ι} (h : a.role j = .xfer (.recv, i)) :
    a = .received i j := by
  cases a with
  | act r =>
      rw [role] at h
      split_ifs at h
  | write => cases h
  | read => cases h
  | sent i' j' =>
      rw [role] at h
      split_ifs at h
      cases h
  | received i' j' =>
      rw [role] at h
      split_ifs at h with hj
      cases h
      rw [hj]

section Flow

variable {a : Label ι} {bs : List (Octet α)} {i j : ι} {c : Conn α}

omit [DecidableEq β] in
/-- Only handing over bytes and the return of the `Send` change what has been sent. -/
theorem Label.flow_sent (hw : ∀ k, a ≠ .write i j k) (hs : a ≠ .sent i j) :
    (a.flow bs i j c).sent = c.sent := by
  cases a <;> grind [flow]

omit [DecidableEq β] in
theorem Label.flow_got (hr : ∀ k, a ≠ .read i j k) (hs : a ≠ .received i j) :
    (a.flow bs i j c).got = c.got := by
  cases a <;> grind [flow]

omit [DecidableEq β] in
/-- Nothing but handing over bytes fills the buffer. -/
theorem Label.length_flow_buffer (hw : ∀ k, a ≠ .write i j k) :
    (a.flow bs i j c).buffer.length ≤ c.buffer.length := by
  cases a <;> grind [flow]

omit [DecidableEq β] in
/-- Only taking bytes changes which are the first ones. -/
theorem Label.take_flow_buffer (hr : ∀ k, a ≠ .read i j k) {k : ℕ} (hk : k ≤ c.buffer.length) :
    (a.flow bs i j c).buffer.take k = c.buffer.take k := by
  cases a <;> grind [flow]

end Flow

section Payloads

variable {capacity : ℕ} {s t : Wire ι β α} {i j : ι} {k : ℕ} {d e : List (Octet α)}

omit [DecidableEq β] in
/-- A `Send` that still hands over bytes does not return. -/
theorem not_sent_of_write (hd : Payload capacity s (.write i j k) d) :
    ¬ Payload capacity s (.sent i j) e := by
  rintro ⟨-, data', hdata', hsent⟩
  obtain ⟨data, hdata, rfl, hlen, hk, -⟩ := hd
  obtain rfl := Option.some.inj (hdata.symm.trans hdata')
  rw [hsent, List.drop_length, List.take_nil, List.length_nil] at hlen
  omega

omit [DecidableEq β] in
/-- A `Recv` that still takes bytes does not return. -/
theorem not_received_of_read (hd : Payload capacity s (.read i j k) d) :
    ¬ Payload capacity s (.received i j) e := by
  rintro ⟨rfl, x', hx', hlen⟩
  obtain ⟨x, hx, -, -, hk, hle⟩ := hd
  obtain rfl := Option.some.inj (hx.symm.trans hx')
  omega

theorem data?_play {a : Label ι} (hs : ∀ q, (s.node q).RaceFree)
    (hplay : ∀ q, (s.node q).play (cells d) (a.role q) = some (t.node q))
    (ha : a ≠ .sent i j) {data : List (Octet α)} (hdata : s.data? i j = some data) :
    t.data? i j = some data := by
  obtain ⟨x, hx, rfl⟩ := Option.map_eq_some_iff.mp hdata
  have hrole : a.role i ≠ .xfer (.send, j) := fun h => ha (Label.eq_sent h)
  have hxt : (t.node i).find (.send, j) = some x := Node.find_play hrole (hplay i) hx
  have hoffer : (s.node i).offer? j = some ((s.node i).mem.read x.slice) := by
    simp [Node.offer?, hx]
  have hoffer' := Node.offer?_play (hs i) hrole (hplay i) hoffer
  rw [Node.offer?, hxt] at hoffer'
  rw [data?, hxt]
  exact congrArg some (congrArg (octets x.width) (Option.some.inj hoffer'))

theorem find_play {a : Label ι}
    (hplay : ∀ q, (s.node q).play (cells d) (a.role q) = some (t.node q))
    (ha : a ≠ .received i j) {x : Xfer ι β} (hx : (s.node j).find (.recv, i) = some x) :
    (t.node j).find (.recv, i) = some x :=
  Node.find_play (fun h => ha (Label.eq_received h)) (hplay j) hx

/-- A step of one byte leaves the other enabled steps enabled, with the same bytes. -/
theorem payload_play (hs : ∀ q, (s.node q).RaceFree) {a b : Label ι} (hab : a ≠ b)
    (hua : a.Unit) (hub : b.Unit) (hd : Payload capacity s a d)
    (hplay : ∀ q, (s.node q).play (cells d) (a.role q) = some (t.node q))
    (hflow : ∀ i j, t.conn i j = a.flow d i j (s.conn i j)) (he : Payload capacity s b e) :
    Payload capacity t b e := by
  cases b with
  | act r => exact he
  | write i j k =>
      have hw : ∀ k', a ≠ .write i j k' := by
        rintro k' rfl
        exact hab (congrArg _ (hua.trans hub.symm))
      have hsent : a ≠ .sent i j := by
        rintro rfl
        exact not_sent_of_write he hd
      obtain ⟨data, hdata, hbytes, hlen, hk, hroom⟩ := he
      refine ⟨data, data?_play hs hplay hsent hdata, ?_, hlen, hk, ?_⟩
      · rw [hflow, Label.flow_sent hw hsent]
        exact hbytes
      · rw [hflow]
        exact (Nat.add_le_add_right (Label.length_flow_buffer hw) k).trans hroom
  | read i j k =>
      have hr : ∀ k', a ≠ .read i j k' := by
        rintro k' rfl
        exact hab (congrArg _ (hua.trans hub.symm))
      have hreceived : a ≠ .received i j := by
        rintro rfl
        exact not_received_of_read he hd
      obtain ⟨x, hx, hbytes, hlen, hk, hle⟩ := he
      have hbuffer : k ≤ (s.conn i j).buffer.length := by
        rw [← hlen, hbytes]
        exact List.length_take_le' _ _
      refine ⟨x, find_play hplay hreceived hx, ?_, hlen, hk, ?_⟩
      · rw [hflow, Label.take_flow_buffer hr hbuffer]
        exact hbytes
      · rw [hflow, Label.flow_got hr hreceived]
        exact hle
  | sent i j =>
      have hw : ∀ k', a ≠ .write i j k' := by
        rintro k' rfl
        exact not_sent_of_write hd he
      obtain ⟨rfl, data, hdata, hsent⟩ := he
      refine ⟨rfl, data, data?_play hs hplay hab hdata, ?_⟩
      rw [hflow, Label.flow_sent hw hab]
      exact hsent
  | received i j =>
      have hr : ∀ k', a ≠ .read i j k' := by
        rintro k' rfl
        exact not_received_of_read hd he
      obtain ⟨hbytes, x, hx, hlen⟩ := he
      refine ⟨?_, x, find_play hplay hab hx, hlen⟩
      rw [hflow, Label.flow_got hr hab]
      exact hbytes

omit [DecidableEq β] in
/-- Two steps of one byte change a stream in either order to the same effect. -/
theorem Label.flow_comm {a b : Label ι} (hab : a ≠ b) (hua : a.Unit) (hub : b.Unit)
    (hd : Payload capacity s a d) (he : Payload capacity s b e) (i j : ι) :
    b.flow e i j (a.flow d i j (s.conn i j)) = a.flow d i j (b.flow e i j (s.conn i j)) := by
  have hlen {i j : ι} {k : ℕ} {c : List (Octet α)} (hc : Payload capacity s (.read i j k) c) :
      c.length ≤ (s.conn i j).buffer.length := by
    obtain ⟨x, -, rfl, -⟩ := hc
    exact List.length_take_le' _ _
  cases a with
  | act r => rfl
  | write i₁ j₁ k₁ =>
      cases b with
      | act r => rfl
      | write i₂ j₂ k₂ =>
          simp only [flow]
          split_ifs with h₁ h₂
          · exact absurd (by rw [← h₁.1, ← h₁.2, h₂.1, h₂.2, hua, hub]) hab
          all_goals rfl
      | read i₂ j₂ k₂ =>
          simp only [flow]
          split_ifs with h₁ h₂
          · rw [h₁.1, h₁.2]
            exact congrArg (Conn.mk _ · _) (List.drop_append_of_le_length (hlen he))
          all_goals rfl
      | sent i₂ j₂ =>
          simp only [flow]
          split_ifs with h₁ h₂
          · obtain ⟨rfl, rfl⟩ := h₁
            obtain ⟨rfl, rfl⟩ := h₂
            exact absurd he (not_sent_of_write hd)
          all_goals rfl
      | received i₂ j₂ =>
          simp only [flow]
          split_ifs <;> rfl
  | read i₁ j₁ k₁ =>
      cases b with
      | act r => rfl
      | write i₂ j₂ k₂ =>
          simp only [flow]
          split_ifs with h₁ h₂
          · rw [h₂.1, h₂.2]
            exact congrArg (Conn.mk _ · _) (List.drop_append_of_le_length (hlen hd)).symm
          all_goals rfl
      | read i₂ j₂ k₂ =>
          simp only [flow]
          split_ifs with h₁ h₂
          · exact absurd (by rw [← h₁.1, ← h₁.2, h₂.1, h₂.2, hua, hub]) hab
          all_goals rfl
      | sent i₂ j₂ =>
          simp only [flow]
          split_ifs <;> rfl
      | received i₂ j₂ =>
          simp only [flow]
          split_ifs with h₁ h₂
          · obtain ⟨rfl, rfl⟩ := h₁
            obtain ⟨rfl, rfl⟩ := h₂
            exact absurd he (not_received_of_read hd)
          all_goals rfl
  | sent i₁ j₁ =>
      cases b with
      | act r => rfl
      | write i₂ j₂ k₂ =>
          simp only [flow]
          split_ifs with h₁ h₂
          · obtain ⟨rfl, rfl⟩ := h₁
            obtain ⟨rfl, rfl⟩ := h₂
            exact absurd hd (not_sent_of_write he)
          all_goals rfl
      | read i₂ j₂ k₂ =>
          simp only [flow]
          split_ifs <;> rfl
      | sent i₂ j₂ =>
          simp only [flow]
          split_ifs <;> rfl
      | received i₂ j₂ =>
          simp only [flow]
          split_ifs <;> rfl
  | received i₁ j₁ =>
      cases b with
      | act r => rfl
      | write i₂ j₂ k₂ =>
          simp only [flow]
          split_ifs <;> rfl
      | read i₂ j₂ k₂ =>
          simp only [flow]
          split_ifs with h₁ h₂
          · obtain ⟨rfl, rfl⟩ := h₁
            obtain ⟨rfl, rfl⟩ := h₂
            exact absurd hd (not_received_of_read he)
          all_goals rfl
      | sent i₂ j₂ =>
          simp only [flow]
          split_ifs <;> rfl
      | received i₂ j₂ =>
          simp only [flow]
          split_ifs <;> rfl

end Payloads

/-- Networks of race-free processes over streams are deterministic, byte by byte. -/
theorem unit_commuting (capacity : ℕ) :
    Lts.Commuting (unitStep (ι := ι) (β := β) (α := α) capacity)
      (fun s => ∀ q, (s.node q).RaceFree) (fun _ _ => True) where
  det := by
    rintro ⟨n, c⟩ a ⟨n₁, c₁⟩ ⟨n₂, c₂⟩ ⟨⟨d, hd, hplay, hflow⟩, -⟩ ⟨⟨d', hd', hplay', hflow'⟩, -⟩
    have hdd : d = d' := by
      cases a with
      | act r => exact hd.trans hd'.symm
      | write i j k =>
          obtain ⟨data, hdata, rfl, -⟩ := hd
          obtain ⟨data', hdata', rfl, -⟩ := hd'
          rw [Option.some.inj (hdata.symm.trans hdata')]
      | read i j k =>
          obtain ⟨x, -, rfl, -⟩ := hd
          obtain ⟨x', -, rfl, -⟩ := hd'
          rfl
      | sent i j => exact hd.1.trans hd'.1.symm
      | received i j => exact hd.1.trans hd'.1.symm
    subst hdd
    have hn : n₁ = n₂ := funext fun q => Option.some.inj ((hplay q).symm.trans (hplay' q))
    have hc : c₁ = c₂ := funext fun i => funext fun j => (hflow i j).trans (hflow' i j).symm
    rw [hn, hc]
  inv := by
    rintro s a t hs ⟨⟨d, -, hplay, -⟩, -⟩ q
    exact Node.raceFree_play (hs q) (hplay q)
  square := by
    rintro s a b t u hs hab ⟨⟨d, hd, ha, hfa⟩, hua⟩ ⟨⟨e, he, hb, hfb⟩, hub⟩
    have hw : ∀ q, ∃ w, (t.node q).play (cells e) (b.role q) = some w ∧
        (u.node q).play (cells d) (a.role q) = some w := by
      intro q
      by_cases hq : a.role q = b.role q
      · have hidle := Label.role_ne hab hq
        have ht : s.node q = t.node q := Option.some.inj (by rw [← ha q, hidle]; rfl)
        have hu : s.node q = u.node q :=
          Option.some.inj (by rw [← hb q, ← hq, hidle]; rfl)
        rw [← ht, ← hu, ← hq, hidle]
        exact ⟨s.node q, rfl, rfl⟩
      · exact Node.play_square (hs q) hq (ha q) (hb q)
    choose w hwb hwa using hw
    refine ⟨⟨w, fun i j => b.flow e i j (t.conn i j)⟩,
      ⟨⟨e, payload_play hs hab hua hub hd ha hfa he, hwb, fun _ _ => rfl⟩, hub⟩,
      ⟨d, payload_play hs (Ne.symm hab) hub hua he hb hfb hd, hwa, fun i j => ?_⟩, hua⟩
    show b.flow e i j (t.conn i j) = a.flow d i j (u.conn i j)
    rw [hfa, hfb]
    exact Label.flow_comm hab hua hub hd he i j
  persist := fun _ _ _ _ => Iff.rfl

variable {capacity : ℕ}

theorem terminal_of_finished {s : Wire ι β α} (h : ∀ q, (s.node q).Finished) :
    (step capacity).Terminal s := by
  rintro a t ⟨d, hd, hplay, -⟩
  cases a with
  | act r =>
      have hr := hplay r
      simp [Label.role, Node.play, (h r).local?_eq_none] at hr
  | write i j k =>
      obtain ⟨data, hdata, -⟩ := hd
      simp [data?, (h i).find_eq_none] at hdata
  | read i j k =>
      obtain ⟨x, hx, -⟩ := hd
      simp [(h j).find_eq_none] at hx
  | sent i j =>
      obtain ⟨-, data, hdata, -⟩ := hd
      simp [data?, (h i).find_eq_none] at hdata
  | received i j =>
      obtain ⟨-, x, hx, -⟩ := hd
      simp [(h j).find_eq_none] at hx

/-- A process that has returned is as it was in all later states. -/
theorem frozen {s t : Wire ι β α} (h : (step capacity).Reaches s t) {q : ι}
    (hq : (s.node q).Finished) : t.node q = s.node q := by
  induction h with
  | refl => rfl
  | tail _ hstep ih =>
      obtain ⟨a, d, -, hplay, -⟩ := hstep
      exact ((ih ▸ hq).eq_of_play (hplay q)).trans ih

/-! ### Steps of many bytes -/

section Many

variable {s t : Wire ι β α} {i j : ι} {k : ℕ}

/-- Handing over `k + 1` bytes is handing over one and then `k`. -/
theorem write_succ (hk : 0 < k) (h : step capacity s (.write i j (k + 1)) t) :
    ∃ u, unitStep capacity s (.write i j 1) u ∧ step capacity u (.write i j k) t := by
  obtain ⟨bs, ⟨data, hdata, rfl, hlen, -, hroom⟩, hplay, hflow⟩ := h
  set rest := data.drop (s.conn i j).sent with hrest
  have hle : k + 1 ≤ rest.length := by
    rw [← hlen]
    exact List.length_take_le' _ _
  have hone : (rest.take 1).length = 1 := by rw [List.length_take]; omega
  have hmany : ((rest.drop 1).take k).length = k := by
    rw [List.length_take, List.length_drop]
    omega
  have hsplit : rest.take (k + 1) = rest.take 1 ++ (rest.drop 1).take k := by
    rw [Nat.add_comm k 1, List.take_add]
  let u : Wire ι β α := ⟨s.node, fun i' j' =>
    (Label.write i j 1).flow (rest.take 1) i' j' (s.conn i' j')⟩
  have hu : u.conn i j = ⟨(s.conn i j).sent + 1, (s.conn i j).buffer ++ rest.take 1,
      (s.conn i j).got⟩ := by
    show (Label.write i j 1).flow (rest.take 1) i j (s.conn i j) = _
    rw [Label.flow, if_pos ⟨rfl, rfl⟩, hone]
  refine ⟨u, ⟨⟨rest.take 1, ⟨data, hdata, rfl, hone, Nat.one_pos, by omega⟩, fun q => rfl,
    fun _ _ => rfl⟩, rfl⟩, (rest.drop 1).take k, ⟨data, hdata, ?_, hmany, hk, ?_⟩, hplay,
    fun i' j' => ?_⟩
  · rw [hu, hrest, List.drop_drop]
  · rw [hu, List.length_append, hone]
    omega
  · rw [hflow]
    by_cases hij : i' = i ∧ j' = j
    · obtain ⟨rfl, rfl⟩ := hij
      rw [hu]
      simp only [Label.flow, and_self, if_true, hsplit, List.length_append, hone,
        Nat.add_assoc, List.append_assoc]
    · simp [u, Label.flow, hij]

/-- Taking `k + 1` bytes is taking one and then `k`. -/
theorem read_succ (hk : 0 < k) (h : step capacity s (.read i j (k + 1)) t) :
    ∃ u, unitStep capacity s (.read i j 1) u ∧ step capacity u (.read i j k) t := by
  obtain ⟨bs, ⟨x, hx, rfl, hlen, -, hle⟩, hplay, hflow⟩ := h
  set buffer := (s.conn i j).buffer with hbuffer
  have hlt : k + 1 ≤ buffer.length := by
    rw [← hlen]
    exact List.length_take_le' _ _
  have hone : (buffer.take 1).length = 1 := by rw [List.length_take]; omega
  have hmany : ((buffer.drop 1).take k).length = k := by
    rw [List.length_take, List.length_drop]
    omega
  have hsplit : buffer.take (k + 1) = buffer.take 1 ++ (buffer.drop 1).take k := by
    rw [Nat.add_comm k 1, List.take_add]
  let u : Wire ι β α := ⟨s.node, fun i' j' =>
    (Label.read i j 1).flow (buffer.take 1) i' j' (s.conn i' j')⟩
  have hu : u.conn i j = ⟨(s.conn i j).sent, buffer.drop 1,
      (s.conn i j).got ++ buffer.take 1⟩ := by
    show (Label.read i j 1).flow (buffer.take 1) i j (s.conn i j) = _
    rw [Label.flow, if_pos ⟨rfl, rfl⟩, hone]
  refine ⟨u, ⟨⟨buffer.take 1, ⟨x, hx, rfl, hone, Nat.one_pos, by omega⟩, fun q => rfl,
    fun _ _ => rfl⟩, rfl⟩, (buffer.drop 1).take k, ⟨x, hx, ?_, hmany, hk, ?_⟩, hplay,
    fun i' j' => ?_⟩
  · rw [hu]
  · rw [hu, List.length_append, hone]
    omega
  · rw [hflow]
    by_cases hij : i' = i ∧ j' = j
    · obtain ⟨rfl, rfl⟩ := hij
      rw [hu]
      simp only [Label.flow, and_self, if_true, hsplit, hmany, List.append_assoc, List.drop_drop,
        ← hbuffer, List.length_append, hone]
    · simp [u, Label.flow, hij]

/-- **A step of many bytes is a run of steps of one byte.** -/
theorem exists_unit_run {a : Label ι} (h : step capacity s a t) :
    ∃ l, Lts.Run (unitStep capacity) (fun _ _ => True) s l t ∧ 1 ≤ l.length := by
  have hsingle {u : Wire ι β α} {b : Label ι} (hu : unitStep capacity u b t) :
      ∃ l, Lts.Run (unitStep capacity) (fun _ _ => True) u l t ∧ 1 ≤ l.length :=
    ⟨[b], .single hu trivial, le_rfl⟩
  cases a with
  | act r => exact hsingle ⟨h, trivial⟩
  | sent i j => exact hsingle ⟨h, trivial⟩
  | received i j => exact hsingle ⟨h, trivial⟩
  | write i j k =>
      induction k generalizing s with
      | zero =>
          obtain ⟨bs, ⟨data, -, -, -, hpos, -⟩, -⟩ := h
          exact absurd hpos (Nat.lt_irrefl 0)
      | succ k ih =>
          rcases Nat.eq_zero_or_pos k with rfl | hk
          · exact hsingle ⟨h, rfl⟩
          · obtain ⟨u, hu, hrest⟩ := write_succ hk h
            obtain ⟨l, hl, -⟩ := ih hrest
            exact ⟨_, .cons hu trivial hl, Nat.succ_le_succ (Nat.zero_le _)⟩
  | read i j k =>
      induction k generalizing s with
      | zero =>
          obtain ⟨bs, ⟨x, -, -, -, hpos, -⟩, -⟩ := h
          exact absurd hpos (Nat.lt_irrefl 0)
      | succ k ih =>
          rcases Nat.eq_zero_or_pos k with rfl | hk
          · exact hsingle ⟨h, rfl⟩
          · obtain ⟨u, hu, hrest⟩ := read_succ hk h
            obtain ⟨l, hl, -⟩ := ih hrest
            exact ⟨_, .cons hu trivial hl, Nat.succ_le_succ (Nat.zero_le _)⟩

/-- A run is a run of steps of one byte, which is not shorter. -/
theorem unit_run_of_run {l : List (Label ι)} {Q : Wire ι β α → Label ι → Prop}
    (h : Lts.Run (step capacity) Q s l t) :
    ∃ l', Lts.Run (unitStep capacity) (fun _ _ => True) s l' t ∧ l.length ≤ l'.length := by
  induction h with
  | nil s => exact ⟨[], .nil s, le_rfl⟩
  | cons hstep _ _ ih =>
      obtain ⟨l₁, hl₁, hlen₁⟩ := exists_unit_run hstep
      obtain ⟨l₂, hl₂, hlen₂⟩ := ih
      refine ⟨l₁ ++ l₂, hl₁.append hl₂, ?_⟩
      rw [List.length_cons, List.length_append]
      omega

theorem run_of_unit_run {l : List (Label ι)}
    (h : Lts.Run (unitStep capacity) (fun _ _ => True) s l t) :
    Lts.Run (step capacity) (fun _ _ => True) s l t := by
  induction h with
  | nil s => exact .nil s
  | cons hstep _ _ ih => exact .cons hstep.1 trivial ih

end Many

end Wire

end MiniCcl
