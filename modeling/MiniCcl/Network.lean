/-
MiniCcl/Network.lean

Two semantics of a network of processes, and why both are deterministic.

* `Rendezvous.step`: a `Send` completes only together with the matching `Recv`.
  No message is ever in transit.
* `Fifo.step`: a `Send` appends its cells to the channel of the pair, a `Recv`
  of `len` cells completes when that many are there and takes them.  Channels
  are streams of cells without message boundaries, as a byte stream is.

A step is described by the role every process plays in it (`Node.play`), so
that two steps commute because their roles commute at every single process
(`Node.play_square`).  This is where freedom from races is needed: a send
thread reads its slice when the transfer happens, possibly after another
transfer of the same process has written to memory.
-/
import MiniCcl.Confluence
import MiniCcl.Process

namespace MiniCcl

variable {ι β α : Type*}

/-- A process during a run: the transfers that are outstanding, what follows
once all of them have returned, and the memory. -/
structure Node (ι β α : Type*) where
  pending : List (Xfer ι β)
  next : Prog ι β α
  mem : Mem β α

/-- What a process does in one step of the network: nothing, a local step, or
the completion of the transfer with a given direction and peer. -/
inductive Role (ι : Type*)
  | idle
  | act
  | xfer (k : Dir × ι)

namespace Node

/-- The process has returned `b`; all its threads are joined. -/
def Returned (x : Node ι β α) (b : Bool) : Prop :=
  x.pending = [] ∧ x.next = .ret b

/-- The process has returned. -/
def Finished (x : Node ι β α) : Prop := ∃ b, x.Returned b

/-- The outstanding transfers are compatible and so are all later batches. -/
def RaceFree (x : Node ι β α) : Prop :=
  x.pending.Pairwise Xfer.Compatible ∧ x.next.RaceFree

/-- One local step: a computation, or the start of the next batch.  A node in
which a transfer is outstanding waits for it. -/
def local? : Node ι β α → Option (Node ι β α)
  | ⟨[], .act f k, m⟩ => some ⟨[], k, f m⟩
  | ⟨[], .par ops k, m⟩ => some ⟨ops, k (ops.map fun _ => true), m⟩
  | _ => none

variable [DecidableEq ι]

/-- The outstanding transfer with the given direction and peer. -/
def find (x : Node ι β α) (k : Dir × ι) : Option (Xfer ι β) :=
  x.pending.find? fun y => decide (y.key = k)

/-- The outstanding transfers without that one. -/
def without (x : Node ι β α) (k : Dir × ι) : List (Xfer ι β) :=
  x.pending.eraseP fun y => decide (y.key = k)

/-- The cells offered to `j` by an outstanding `Send`. -/
def offer? (x : Node ι β α) (j : ι) : Option (List α) :=
  (x.find (.send, j)).map fun op => x.mem.read op.slice

/-- Play a role; `d` is the list of cells a receiver gets. -/
def play [DecidableEq β] (x : Node ι β α) (d : List α) : Role ι → Option (Node ι β α)
  | .idle => some x
  | .act => x.local?
  | .xfer k => (x.find k).map fun op => ⟨x.without k, x.next, op.land d x.mem⟩

/-! ### Looking up and removing outstanding transfers -/

theorem key_of_find {x : Node ι β α} {k : Dir × ι} {op : Xfer ι β}
    (h : x.find k = some op) : op.key = k := by
  simpa using List.find?_some h

theorem mem_of_find {x : Node ι β α} {k : Dir × ι} {op : Xfer ι β}
    (h : x.find k = some op) : op ∈ x.pending :=
  List.mem_of_find?_eq_some h

/-- Removing one transfer does not hide another. -/
theorem find?_without {x : Node ι β α} {k k' : Dir × ι} (h : k ≠ k') :
    (x.without k).find? (fun y => decide (y.key = k')) = x.find k' := by
  unfold without find
  induction x.pending with
  | nil => rfl
  | cons y ys ih =>
      by_cases hk : y.key = k
      · have hk' : y.key ≠ k' := fun h' => h (hk.symm.trans h')
        simp [hk, h]
      · by_cases hk' : y.key = k'
        · simp [hk', show k' ≠ k from Ne.symm h]
        · simp [hk, hk', ih]

theorem without_comm (x : Node ι β α) {k k' : Dir × ι} (h : k ≠ k') :
    (x.without k).eraseP (fun y => decide (y.key = k'))
      = (x.without k').eraseP (fun y => decide (y.key = k)) := by
  refine List.eraseP_comm fun y _ => ?_
  by_cases hk : y.key = k
  · exact .inr (by simpa [hk] using h)
  · exact .inl (by simpa using hk)

/-- Two different outstanding transfers of a race-free node are compatible. -/
theorem compatible_of_find {x : Node ι β α} (hx : x.RaceFree) {k k' : Dir × ι}
    (h : k ≠ k') {a b : Xfer ι β} (ha : x.find k = some a)
    (hb : x.find k' = some b) : a.Compatible b := by
  have hne : a ≠ b := by
    rintro rfl
    exact h ((key_of_find ha).symm.trans (key_of_find hb))
  have : Std.Symm (@Xfer.Compatible ι β) := ⟨fun _ _ => Xfer.Compatible.symm⟩
  exact hx.1.forall (mem_of_find ha) (mem_of_find hb) hne

/-- A node with an outstanding transfer takes no local step. -/
theorem local?_eq_none {x : Node ι β α} {k : Dir × ι} {op : Xfer ι β}
    (h : x.find k = some op) : x.local? = none := by
  obtain ⟨pending, next, mem⟩ := x
  cases pending with
  | nil => simp [find] at h
  | cons z zs => cases next <;> rfl

/-- A node that has returned has no outstanding transfer and no local step. -/
theorem Finished.find_eq_none {x : Node ι β α} (h : x.Finished) (k : Dir × ι) :
    x.find k = none := by
  obtain ⟨b, hp, -⟩ := h
  simp [find, hp]

omit [DecidableEq ι] in
theorem Finished.local?_eq_none {x : Node ι β α} (h : x.Finished) :
    x.local? = none := by
  obtain ⟨pending, next, mem⟩ := x
  obtain ⟨b, hp, hn⟩ := h
  cases hp
  cases hn
  rfl

/-! ### Playing a role -/

variable [DecidableEq β]

theorem play_xfer {x : Node ι β α} {d : List α} {k : Dir × ι} {op : Xfer ι β}
    (h : x.find k = some op) :
    x.play d (.xfer k) = some ⟨x.without k, x.next, op.land d x.mem⟩ := by
  simp [play, h]

/-- A process that has returned does not change any more. -/
theorem Finished.eq_of_play {x y : Node ι β α} (h : x.Finished) {d : List α}
    {a : Role ι} (ha : x.play d a = some y) : y = x := by
  cases a with
  | idle => exact (Option.some.inj ha).symm
  | act => exact absurd ha (by simp [play, h.local?_eq_none])
  | xfer k => exact absurd ha (by simp [play, h.find_eq_none])

theorem find_play {x y : Node ι β α} {d : List α} {a : Role ι} {k : Dir × ι}
    {op : Xfer ι β} (hk : a ≠ .xfer k) (ha : x.play d a = some y)
    (hop : x.find k = some op) : y.find k = some op := by
  cases a with
  | idle =>
      cases ha
      exact hop
  | act => exact absurd ha (by simp [play, local?_eq_none hop])
  | xfer k' =>
      obtain ⟨_, -, rfl⟩ := Option.map_eq_some_iff.mp ha
      exact (find?_without fun h => hk (congrArg Role.xfer h)).trans hop

theorem offer?_play {x y : Node ι β α} (hx : x.RaceFree) {d c : List α}
    {a : Role ι} {j : ι} (hj : a ≠ .xfer (.send, j))
    (ha : x.play d a = some y) (hc : x.offer? j = some c) :
    y.offer? j = some c := by
  obtain ⟨op, hop, rfl⟩ := Option.map_eq_some_iff.mp hc
  have hy : y.find (.send, j) = some op := find_play hj ha hop
  suffices hmem : y.mem.read op.slice = x.mem.read op.slice by
    simp [offer?, hy, hmem]
  cases a with
  | idle =>
      cases ha
      rfl
  | act => exact absurd ha (by simp [play, local?_eq_none hop])
  | xfer k =>
      -- the send reads cells that the other transfer does not write
      obtain ⟨op', hop', rfl⟩ := Option.map_eq_some_iff.mp ha
      have hne : ((Dir.send, j) : Dir × ι) ≠ k := fun h => hj (congrArg Role.xfer h.symm)
      exact (compatible_of_find hx hne hop hop').read_land d x.mem

theorem raceFree_play {x y : Node ι β α} (hx : x.RaceFree) {d : List α}
    {a : Role ι} (ha : x.play d a = some y) : y.RaceFree := by
  cases a with
  | idle =>
      cases ha
      exact hx
  | act =>
      obtain ⟨pending, next, mem⟩ := x
      cases pending with
      | cons z zs => cases next <;> simp [play, local?] at ha
      | nil =>
          cases next with
          | ret b => simp [play, local?] at ha
          | act f k =>
              obtain rfl := Option.some.inj ha
              exact ⟨List.Pairwise.nil, hx.2⟩
          | par ops k =>
              obtain rfl := Option.some.inj ha
              exact ⟨hx.2.1, hx.2.2 _⟩
  | xfer k =>
      obtain ⟨_, -, rfl⟩ := Option.map_eq_some_iff.mp ha
      exact ⟨hx.1.sublist List.eraseP_sublist, hx.2⟩

/-- A role other than the one already played can still be played, and the
order of the two does not matter. -/
theorem play_square {x y z : Node ι β α} (hx : x.RaceFree) {d e : List α}
    {a b : Role ι} (hab : a ≠ b) (ha : x.play d a = some y)
    (hb : x.play e b = some z) :
    ∃ w, y.play e b = some w ∧ z.play d a = some w := by
  cases a with
  | idle =>
      cases ha
      exact ⟨z, hb, rfl⟩
  | act =>
      cases b with
      | idle =>
          cases hb
          exact ⟨y, rfl, ha⟩
      | act => exact absurd rfl hab
      | xfer k =>
          obtain ⟨op, hop, -⟩ := Option.map_eq_some_iff.mp hb
          exact absurd ha (by simp [play, local?_eq_none hop])
  | xfer k =>
      obtain ⟨op, hop, hxy⟩ := Option.map_eq_some_iff.mp ha
      cases b with
      | idle =>
          cases hb
          exact ⟨_, rfl, ha⟩
      | act => exact absurd hb (by simp [play, local?_eq_none hop])
      | xfer k' =>
          have hne : k ≠ k' := fun h => hab (congrArg Role.xfer h)
          obtain ⟨op', hop', hxz⟩ := Option.map_eq_some_iff.mp hb
          have hy : y.find k' = some op' := find_play hab ha hop'
          have hz : z.find k = some op := find_play (Ne.symm hab) hb hop
          subst hxy hxz
          refine ⟨_, play_xfer hy, ?_⟩
          rw [play_xfer hz, (compatible_of_find hx hne hop hop').land_comm d e x.mem]
          exact congrArg (fun l => some (Node.mk l x.next _)) (without_comm x hne).symm

end Node

/-- All processes at their first instruction. -/
def start (P : ι → Prog ι β α) (m : ι → Mem β α) : ι → Node ι β α :=
  fun r => ⟨[], P r, m r⟩

theorem raceFree_start {P : ι → Prog ι β α} (h : ∀ r, (P r).RaceFree)
    (m : ι → Mem β α) (r : ι) : (start P m r).RaceFree :=
  ⟨List.Pairwise.nil, h r⟩

variable [DecidableEq ι] [DecidableEq β]

/-! ### Rendezvous semantics -/

namespace Rendezvous

/-- A local step of `r`, or a transfer from `i` to `j`. -/
inductive Label (ι : Type*)
  | act (r : ι)
  | comm (i j : ι)

/-- The role of process `q` in a step. -/
def Label.role : Label ι → ι → Role ι
  | act r, q => if q = r then .act else .idle
  | comm i j, q =>
      if q = i then .xfer (.send, j) else if q = j then .xfer (.recv, i) else .idle

/-- The cells that a step transfers. -/
def Payload (s : ι → Node ι β α) : Label ι → List α → Prop
  | .act _, d => d = []
  | .comm i j, d => i ≠ j ∧ (s i).offer? j = some d

/-- One step: every process plays its role. -/
def step : Lts (ι → Node ι β α) (Label ι) := fun s a t =>
  ∃ d, Payload s a d ∧ ∀ q, (s q).play d (a.role q) = some (t q)

/-- The `Send` and the `Recv` that meet in the step are of the same length. -/
def Matched (s : ι → Node ι β α) : Label ι → Prop
  | .act _ => True
  | .comm i j => ∀ x y, (s i).find (.send, j) = some x →
      (s j).find (.recv, i) = some y → x.slice.len = y.slice.len ∧ x.width = y.width

omit [DecidableEq β] in
/-- A process that takes part in two different steps has different roles. -/
theorem Label.role_ne {a b : Label ι} (hab : a ≠ b) {q : ι}
    (hq : a.role q = b.role q) : a.role q = .idle := by
  cases a <;> cases b <;> simp only [role] at hq ⊢ <;> split_ifs at hq ⊢ <;> simp_all

theorem exists_find {s u : ι → Node ι β α} {i j : ι} (h : step s (.comm i j) u) :
    i ≠ j ∧ (∃ x, (s i).find (.send, j) = some x) ∧ ∃ y, (s j).find (.recv, i) = some y := by
  obtain ⟨d, ⟨hij, hd⟩, hplay⟩ := h
  obtain ⟨x, hx, -⟩ := Option.map_eq_some_iff.mp hd
  have hj := hplay j
  simp only [Label.role, if_neg (Ne.symm hij), if_true] at hj
  obtain ⟨y, hy, -⟩ := Option.map_eq_some_iff.mp hj
  exact ⟨hij, ⟨x, hx⟩, ⟨y, hy⟩⟩

theorem payload_play {s t : ι → Node ι β α} (hs : ∀ q, (s q).RaceFree)
    {a b : Label ι} (hab : a ≠ b) {d e : List α}
    (hplay : ∀ q, (s q).play d (a.role q) = some (t q)) (hb : Payload s b e) :
    Payload t b e := by
  cases b with
  | act r => exact hb
  | comm i j =>
      refine ⟨hb.1, Node.offer?_play (hs i) (fun h => ?_) (hplay i) hb.2⟩
      have hr : (Label.comm i j).role i = .xfer (.send, j) := if_pos rfl
      exact absurd (Label.role_ne hab (h.trans hr.symm)) (by simp [h])

/-- Rendezvous networks of race-free processes are deterministic. -/
theorem commuting : Lts.Commuting (step (ι := ι) (β := β) (α := α))
    (fun s => ∀ q, (s q).RaceFree) Matched where
  det := by
    rintro s a t t' ⟨d, hd, hplay⟩ ⟨d', hd', hplay'⟩
    have hdd : d = d' := by
      cases a with
      | act r => exact hd.trans hd'.symm
      | comm i j => exact Option.some.inj (hd.2.symm.trans hd'.2)
    subst hdd
    exact funext fun q => Option.some.inj ((hplay q).symm.trans (hplay' q))
  inv := by
    rintro s a t hs ⟨d, -, hplay⟩ q
    exact Node.raceFree_play (hs q) (hplay q)
  square := by
    rintro s a b t u hs hab ⟨d, hd, ha⟩ ⟨e, he, hb⟩
    have hw : ∀ q, ∃ w, (t q).play e (b.role q) = some w ∧
        (u q).play d (a.role q) = some w := by
      intro q
      by_cases hq : a.role q = b.role q
      · -- the process takes part in neither step
        have hidle := Label.role_ne hab hq
        have ht : s q = t q := Option.some.inj (by rw [← ha q, hidle]; rfl)
        have hu : s q = u q := Option.some.inj (by rw [← hb q, ← hq, hidle]; rfl)
        rw [← ht, ← hu, ← hq, hidle]
        exact ⟨s q, rfl, rfl⟩
      · exact Node.play_square (hs q) hq (ha q) (hb q)
    choose w hwb hwa using hw
    exact ⟨w, ⟨e, payload_play hs hab ha he, hwb⟩,
      ⟨d, payload_play hs (Ne.symm hab) hb hd, hwa⟩⟩
  persist := by
    rintro s a b t u hs hab ⟨d, -, ha⟩ hb
    cases b with
    | act r => exact Iff.rfl
    | comm i j =>
        obtain ⟨hij, ⟨x, hx⟩, ⟨y, hy⟩⟩ := exists_find hb
        have hi : (Label.comm i j).role i = .xfer (.send, j) := if_pos rfl
        have hj : (Label.comm i j).role j = .xfer (.recv, i) := by
          simp [Label.role, Ne.symm hij]
        have hxt : (t i).find (.send, j) = some x := by
          refine Node.find_play (fun h => ?_) (ha i) hx
          exact absurd (Label.role_ne hab (h.trans hi.symm)) (by simp [h])
        have hyt : (t j).find (.recv, i) = some y := by
          refine Node.find_play (fun h => ?_) (ha j) hy
          exact absurd (Label.role_ne hab (h.trans hj.symm)) (by simp [h])
        simp only [Matched, hx, hy, hxt, hyt]

theorem terminal_of_finished {s : ι → Node ι β α} (h : ∀ q, (s q).Finished) :
    step.Terminal s := by
  rintro a t ⟨d, hd, hplay⟩
  cases a with
  | act r =>
      have hr := hplay r
      simp [Label.role, Node.play, (h r).local?_eq_none] at hr
  | comm i j =>
      have hi := hplay i
      simp [Label.role, Node.play, (h i).find_eq_none] at hi

/-- A process that has returned is as it was in all later states. -/
theorem frozen {s t : ι → Node ι β α} (h : step.Reaches s t) {q : ι}
    (hq : (s q).Finished) : t q = s q := by
  induction h with
  | refl => rfl
  | tail _ hstep ih =>
      obtain ⟨a, d, -, hplay⟩ := hstep
      exact ((ih ▸ hq).eq_of_play (hplay q)).trans ih

end Rendezvous

/-! ### Channels -/

/-- Processes and, for every ordered pair of them, the cells in transit. -/
structure Fifo (ι β α : Type*) where
  node : ι → Node ι β α
  chan : ι → ι → List α

namespace Fifo

/-- A local step of `r`, a `Send` from `i` to `j`, or a `Recv` at `j` from `i`. -/
inductive Label (ι : Type*)
  | act (r : ι)
  | push (i j : ι)
  | pull (i j : ι)

/-- The role of process `q` in a step. -/
def Label.role : Label ι → ι → Role ι
  | act r, q => if q = r then .act else .idle
  | push i j, q => if q = i then .xfer (.send, j) else .idle
  | pull i j, q => if q = j then .xfer (.recv, i) else .idle

/-- The cells that a step transfers: what the sender offers, or the first cells
of the channel if there are as many as the receiver wants. -/
def Payload (s : Fifo ι β α) : Label ι → List α → Prop
  | .act _, d => d = []
  | .push i j, d => (s.node i).offer? j = some d
  | .pull i j, d => ∃ x, (s.node j).find (.recv, i) = some x ∧
      x.slice.len ≤ (s.chan i j).length ∧ d = (s.chan i j).take x.slice.len

/-- What a step that transfers `d` does to the channel from `i` to `j`. -/
def Label.flow (d : List α) : Label ι → ι → ι → List α → List α
  | act _, _, _, c => c
  | push i j, i', j', c => if i' = i ∧ j' = j then c ++ d else c
  | pull i j, i', j', c => if i' = i ∧ j' = j then c.drop d.length else c

/-- One step: every process plays its role and the channels follow. -/
def step : Lts (Fifo ι β α) (Label ι) := fun s a t =>
  ∃ d, Payload s a d ∧ (∀ q, (s.node q).play d (a.role q) = some (t.node q)) ∧
    ∀ i j, t.chan i j = a.flow d i j (s.chan i j)

/-- All processes at their first instruction, nothing in transit. -/
def init (P : ι → Prog ι β α) (m : ι → Mem β α) : Fifo ι β α :=
  ⟨start P m, fun _ _ => []⟩

omit [DecidableEq β] in
theorem Label.role_ne {a b : Label ι} (hab : a ≠ b) {q : ι}
    (hq : a.role q = b.role q) : a.role q = .idle := by
  cases a <;> cases b <;> simp only [role] at hq ⊢ <;> split_ifs at hq ⊢ <;> simp_all

theorem payload_play {s t : Fifo ι β α} (hs : ∀ q, (s.node q).RaceFree)
    {a b : Label ι} (hab : a ≠ b) {d e : List α}
    (hplay : ∀ q, (s.node q).play d (a.role q) = some (t.node q))
    (hflow : ∀ i j, t.chan i j = a.flow d i j (s.chan i j)) (hb : Payload s b e) :
    Payload t b e := by
  cases b with
  | act r => exact hb
  | push i j =>
      refine Node.offer?_play (hs i) (fun h => ?_) (hplay i) hb
      have hr : (Label.push i j).role i = .xfer (.send, j) := if_pos rfl
      exact absurd (Label.role_ne hab (h.trans hr.symm)) (by simp [h])
  | pull i j =>
      obtain ⟨x, hx, hlen, rfl⟩ := hb
      have hr : (Label.pull i j).role j = .xfer (.recv, i) := if_pos rfl
      have hxt : (t.node j).find (.recv, i) = some x := by
        refine Node.find_play (fun h => ?_) (hplay j) hx
        exact absurd (Label.role_ne hab (h.trans hr.symm)) (by simp [h])
      -- the other step can only append to the channel
      obtain ⟨c, hc⟩ : ∃ c, t.chan i j = s.chan i j ++ c := by
        rw [hflow]
        cases a with
        | act r => exact ⟨[], (List.append_nil _).symm⟩
        | push i' j' =>
            by_cases h : i = i' ∧ j = j'
            · exact ⟨d, if_pos h⟩
            · exact ⟨[], (if_neg h).trans (List.append_nil _).symm⟩
        | pull i' j' =>
            have h : ¬ (i = i' ∧ j = j') := by
              rintro ⟨rfl, rfl⟩
              exact hab rfl
            exact ⟨[], (if_neg h).trans (List.append_nil _).symm⟩
      refine ⟨x, hxt, ?_, ?_⟩
      · rw [hc, List.length_append]
        omega
      · rw [hc, List.take_append_of_le_length hlen]

omit [DecidableEq β] in
/-- Two steps change a channel in either order to the same effect: an append
and a removal of cells that are already there commute. -/
theorem Label.flow_comm {s : Fifo ι β α} {a b : Label ι} (hab : a ≠ b)
    {d e : List α} (hd : Payload s a d) (he : Payload s b e) (i j : ι) :
    b.flow e i j (a.flow d i j (s.chan i j))
      = a.flow d i j (b.flow e i j (s.chan i j)) := by
  have hlen : ∀ {i j : ι} {c : List α}, Payload s (.pull i j) c →
      c.length ≤ (s.chan i j).length := by
    rintro i j c ⟨x, -, hx, rfl⟩
    exact List.length_take_le' _ _
  cases a with
  | act r => rfl
  | push i₁ j₁ =>
      cases b with
      | act r => rfl
      | push i₂ j₂ =>
          simp only [flow]
          split_ifs with h₁ h₂
          · exact absurd (by rw [← h₁.1, ← h₁.2, h₂.1, h₂.2]) hab
          all_goals rfl
      | pull i₂ j₂ =>
          simp only [flow]
          split_ifs with h₁ h₂
          · rw [h₁.1, h₁.2]
            exact List.drop_append_of_le_length (hlen he)
          all_goals rfl
  | pull i₁ j₁ =>
      cases b with
      | act r => rfl
      | push i₂ j₂ =>
          simp only [flow]
          split_ifs with h₁ h₂
          · rw [h₂.1, h₂.2]
            exact (List.drop_append_of_le_length (hlen hd)).symm
          all_goals rfl
      | pull i₂ j₂ =>
          simp only [flow]
          split_ifs with h₁ h₂
          · exact absurd (by rw [← h₁.1, ← h₁.2, h₂.1, h₂.2]) hab
          all_goals rfl

/-- Networks of race-free processes over channels are deterministic. -/
theorem commuting : Lts.Commuting (step (ι := ι) (β := β) (α := α))
    (fun s => ∀ q, (s.node q).RaceFree) (fun _ _ => True) where
  det := by
    rintro ⟨n, c⟩ a ⟨n₁, c₁⟩ ⟨n₂, c₂⟩ ⟨d, hd, hplay, hflow⟩ ⟨d', hd', hplay', hflow'⟩
    have hdd : d = d' := by
      cases a with
      | act r => exact hd.trans hd'.symm
      | push i j => exact Option.some.inj (hd.symm.trans hd')
      | pull i j =>
          obtain ⟨x, hx, -, rfl⟩ := hd
          obtain ⟨x', hx', -, rfl⟩ := hd'
          rw [Option.some.inj (hx.symm.trans hx')]
    subst hdd
    have hn : n₁ = n₂ := funext fun q => Option.some.inj ((hplay q).symm.trans (hplay' q))
    have hc : c₁ = c₂ := funext fun i => funext fun j => (hflow i j).trans (hflow' i j).symm
    rw [hn, hc]
  inv := by
    rintro s a t hs ⟨d, -, hplay, -⟩ q
    exact Node.raceFree_play (hs q) (hplay q)
  square := by
    rintro s a b t u hs hab ⟨d, hd, ha, hfa⟩ ⟨e, he, hb, hfb⟩
    have hw : ∀ q, ∃ w, (t.node q).play e (b.role q) = some w ∧
        (u.node q).play d (a.role q) = some w := by
      intro q
      by_cases hq : a.role q = b.role q
      · have hidle := Label.role_ne hab hq
        have ht : s.node q = t.node q := Option.some.inj (by rw [← ha q, hidle]; rfl)
        have hu : s.node q = u.node q :=
          Option.some.inj (by rw [← hb q, ← hq, hidle]; rfl)
        rw [← ht, ← hu, ← hq, hidle]
        exact ⟨s.node q, rfl, rfl⟩
      · exact Node.play_square (hs q) hq (ha q) (hb q)
    choose w hwb hwa using hw
    refine ⟨⟨w, fun i j => b.flow e i j (t.chan i j)⟩,
      ⟨e, payload_play hs hab ha hfa he, hwb, fun _ _ => rfl⟩,
      ⟨d, payload_play hs (Ne.symm hab) hb hfb hd, hwa, fun i j => ?_⟩⟩
    show b.flow e i j (t.chan i j) = a.flow d i j (u.chan i j)
    rw [hfa, hfb]
    exact Label.flow_comm hab hd he i j
  persist := fun _ _ _ _ => Iff.rfl

theorem terminal_of_finished {s : Fifo ι β α} (h : ∀ q, (s.node q).Finished) :
    step.Terminal s := by
  rintro a t ⟨d, hd, hplay, -⟩
  cases a with
  | act r =>
      have hr := hplay r
      simp [Label.role, Node.play, (h r).local?_eq_none] at hr
  | push i j =>
      have hi := hplay i
      simp [Label.role, Node.play, (h i).find_eq_none] at hi
  | pull i j =>
      have hj := hplay j
      simp [Label.role, Node.play, (h j).find_eq_none] at hj

theorem frozen {s t : Fifo ι β α} (h : step.Reaches s t) {q : ι}
    (hq : (s.node q).Finished) : t.node q = s.node q := by
  induction h with
  | refl => rfl
  | tail _ hstep ih =>
      obtain ⟨a, d, -, hplay, -⟩ := hstep
      exact ((ih ▸ hq).eq_of_play (hplay q)).trans ih

/-- A rendezvous of two transfers of the same length is a `Send` followed by a
`Recv` over an empty channel. -/
theorem exists_push_pull {s t : ι → Node ι β α} {i j : ι} (h : Rendezvous.step s (.comm i j) t)
    (hm : Rendezvous.Matched s (.comm i j)) :
    ∃ mid, step ⟨s, fun _ _ => ([] : List α)⟩ (.push i j) mid ∧
      step mid (.pull i j) ⟨t, fun _ _ => []⟩ := by
  obtain ⟨d, ⟨hij, hoffer⟩, hplay⟩ := h
  have hi := hplay i
  have hj := hplay j
  simp only [Rendezvous.Label.role, if_true] at hi
  simp only [Rendezvous.Label.role, if_neg (Ne.symm hij), if_true] at hj
  obtain ⟨x, hx, rfl⟩ := Option.map_eq_some_iff.mp hoffer
  obtain ⟨y, hy, -⟩ := Option.map_eq_some_iff.mp hj
  have hlen : x.slice.len = y.slice.len := (hm x y hx hy).1
  -- the sender moves first, the receiver is where it was
  let mid : Fifo ι β α := ⟨Function.update s i (t i), fun i' j' =>
    (Label.push i j).flow (s i |>.mem.read x.slice) i' j' []⟩
  have hmidj : mid.node j = s j := Function.update_of_ne (Ne.symm hij) _ _
  have hchan : mid.chan i j = (s i).mem.read x.slice := if_pos ⟨rfl, rfl⟩
  refine ⟨mid, ?_, ?_⟩
  · refine ⟨_, hoffer, fun q => ?_, fun _ _ => rfl⟩
    by_cases hq : q = i
    · subst hq
      simpa [Label.role, mid] using hi
    · simp [Label.role, hq, mid, Node.play]
  · refine ⟨(s i).mem.read x.slice, ⟨y, ?_, ?_, ?_⟩, fun q => ?_, fun i' j' => ?_⟩
    · rw [hmidj]
      exact hy
    · simp [hchan, hlen]
    · rw [hchan, ← hlen, ← Mem.length_read (s i).mem x.slice, List.take_length]
    · by_cases hq : q = j
      · subst hq
        simpa [Label.role, hmidj] using hj
      · by_cases hqi : q = i
        · subst hqi
          simp [Label.role, hq, mid, Node.play]
        · have hq' := hplay q
          simp only [Rendezvous.Label.role, if_neg hq, if_neg hqi] at hq'
          simpa [Label.role, hq, mid, Function.update_of_ne hqi, Node.play] using hq'
    · by_cases hc : i' = i ∧ j' = j
      · obtain ⟨rfl, rfl⟩ := hc
        simp [Label.flow, mid]
      · simp [Label.flow, mid, hc]

/-- A step under rendezvous is a run over channels; `K` is what is known of a process
that computes. -/
theorem run_of_rendezvous {K : ι → Node ι β α → Prop} {s t : ι → Node ι β α}
    {a : Rendezvous.Label ι} (h : Rendezvous.step s a t) (hm : Rendezvous.Matched s a)
    (hK : ∀ q, a = .act q → K q (s q)) :
    ∃ l, Lts.Run step (fun u b => ∀ q, b = .act q → K q (u.node q))
      ⟨s, fun _ _ => ([] : List α)⟩ l ⟨t, fun _ _ => []⟩ := by
  cases a with
  | act r =>
      obtain ⟨d, hd, hplay⟩ := h
      refine ⟨[.act r], .single ⟨d, hd, hplay, fun _ _ => rfl⟩ ?_⟩
      intro q hq
      obtain rfl := Label.act.inj hq
      exact hK r rfl
  | comm i j =>
      obtain ⟨mid, hpush, hpull⟩ := exists_push_pull h hm
      -- neither of the two steps is a computation
      exact ⟨[.push i j, .pull i j], .cons hpush (fun _ hq => by cases hq)
        (.single hpull fun _ hq => by cases hq)⟩

end Fifo

end MiniCcl
