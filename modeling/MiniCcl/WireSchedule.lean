/-
MiniCcl/WireSchedule.lean

Scripts over streams of bytes.

A rendezvous of two transfers of the same length is a run over a stream with room for one
byte: byte by byte through the buffer, then both return.  So the run that plays a script
under rendezvous is a run over streams, and because steps of one byte commute it stands for
all of them, also those with steps of many bytes.
-/
import MiniCcl.Patterns
import MiniCcl.Wire

namespace MiniCcl

variable {ι β α : Type*} [DecidableEq ι]

/-! ### Transfers of a script -/

/-- Cells have at least one byte. -/
def Event.Wide : Event ι β α → Prop
  | comm _ _ _ _ w => 0 < w
  | act _ _ => True

/-- An outstanding transfer is one of those that the process performs. -/
theorem Performs.mem_of_find {ops : List (Xfer ι β)} {p : Prog ι β α} {l : List (Local ι β α)}
    (h : Performs ops p l) {k : Dir × ι} {x : Xfer ι β}
    (hx : ops.find? (fun y => decide (y.key = k)) = some x) : .xfer x ∈ l := by
  have hkey : x.key = k := by simpa using List.find?_some hx
  induction h with
  | done => exact absurd hx (by simp)
  | act => exact absurd hx (by simp)
  | spawn => exact absurd hx (by simp)
  | @xfer ops p y l hy hl ih =>
      by_cases hyk : y.key = k
      · rw [hyk, hx] at hy
        rw [Option.some.inj hy]
        exact List.mem_cons_self
      · have hrest : (ops.eraseP fun z => decide (z.key = y.key)).find?
            (fun z => decide (z.key = k)) = some x :=
          (Node.find?_without (x := (⟨ops, .ret true, fun _ _ => ()⟩ : Node ι β Unit)) hyk).trans hx
        exact List.mem_cons_of_mem _ (ih hrest)

/-- All transfers of the script are of cells that have a byte. -/
def Script.Wide (C : Script ι β α) : Prop := ∀ e ∈ C, e.Wide

theorem Script.wide_of_mem_project {C : Script ι β α} (h : C.Wide) {r : ι}
    {x : Xfer ι β} (hx : .xfer x ∈ Script.project r C) : 0 < x.width := by
  obtain ⟨e, he, hxe⟩ := List.mem_flatMap.mp hx
  have hwide := h e he
  cases e with
  | act q f =>
      rw [Event.project] at hxe
      split_ifs at hxe
      · simp at hxe
      · simp at hxe
  | comm i s j d w =>
      rw [Event.project] at hxe
      split_ifs at hxe
      · rw [Local.xfer.inj (List.mem_singleton.mp hxe)]
        exact hwide
      · rw [Local.xfer.inj (List.mem_singleton.mp hxe)]
        exact hwide
      · simp at hxe

namespace Script

variable {C D : Script ι β α} {w : ℕ}

omit [DecidableEq ι]

theorem wide_nil : Wide ([] : Script ι β α) := List.forall_mem_nil _

theorem wide_cons {e : Event ι β α} : Wide (e :: C) ↔ e.Wide ∧ Wide C :=
  List.forall_mem_cons

theorem wide_append : Wide (C ++ D) ↔ Wide C ∧ Wide D := List.forall_mem_append

theorem wide_flatMap {γ : Type*} {xs : List γ} {C : γ → Script ι β α}
    (h : ∀ x ∈ xs, Wide (C x)) : Wide (xs.flatMap C) := by
  intro e he
  obtain ⟨x, hx, he⟩ := List.mem_flatMap.mp he
  exact h x hx e he

theorem wide_acts (r : ι) (fs : List (Mem β α → Mem β α)) :
    Wide (fs.map (.act r) : Script ι β α) := by
  intro e he
  obtain ⟨f, -, rfl⟩ := List.mem_map.mp he
  exact trivial

theorem wide_locals (L : List ι) (f : ι → Mem β α → Mem β α) : Wide (locals L f) := by
  intro e he
  obtain ⟨q, -, rfl⟩ := List.mem_map.mp he
  exact trivial

variable (hw : 0 < w)
include hw

theorem wide_hops (next : ι → ι) (L : List ι) (s d : ι → Slice β) :
    Wide (hops next L s d w : Script ι β α) := by
  intro e he
  obtain ⟨q, -, rfl⟩ := List.mem_map.mp he
  exact hw

theorem wide_chain (e : ℕ → ι) (s d : ℕ → Slice β)
    (acts : ℕ → List (Mem β α → Mem β α)) (K : ℕ) : Wide (chain e s d w acts K) :=
  wide_flatMap fun p _ => wide_cons.mpr ⟨hw, wide_acts (e (p + 1)) _⟩

theorem wide_inward (root : ι) (L : List ι) (s d : ι → Slice β)
    (acts : ι → List (Mem β α → Mem β α)) : Wide (inward root L s d w acts) :=
  wide_flatMap fun _ _ => wide_cons.mpr ⟨hw, wide_acts root _⟩

theorem wide_outward (root : ι) (L : List ι) (s d : ι → Slice β) :
    Wide (outward root L s d w : Script ι β α) := by
  intro e he
  obtain ⟨q, -, rfl⟩ := List.mem_map.mp he
  exact hw

end Script

variable [DecidableEq β]

namespace Wire

variable {capacity : ℕ} {i j : ι}

/-! ### A rendezvous over a stream -/

/-- All streams are idle but the one from `i` to `j`. -/
def conns (i j : ι) (c : Conn α) : ι → ι → Conn α := fun i' j' =>
  if i' = i ∧ j' = j then c else .idle

omit [DecidableEq β] in
theorem conns_idle : conns i j (.idle : Conn α) = fun _ _ => .idle := by
  funext i' j'
  exact ite_self _

omit [DecidableEq β] in
/-- A step on the stream from `i` to `j` leaves the others idle. -/
theorem flow_conns {a : Label ι} {bs : List (Octet α)} {c c' : Conn α}
    (hflow : a.flow bs i j c = c')
    (hidle : ∀ i' j', ¬ (i' = i ∧ j' = j) → a.flow bs i' j' .idle = .idle) (i' j' : ι) :
    conns i j c' i' j' = a.flow bs i' j' (conns i j c i' j') := by
  by_cases hij : i' = i ∧ j' = j
  · obtain ⟨rfl, rfl⟩ := hij
    rw [conns, conns, if_pos ⟨rfl, rfl⟩, if_pos ⟨rfl, rfl⟩, hflow]
  · rw [conns, conns, if_neg hij, if_neg hij, hidle i' j' hij]

variable {s t : ι → Node ι β α} {data : List (Octet α)} {y : Xfer ι β}

section Pass

variable (hcap : 1 ≤ capacity)
  (hdata : (⟨s, fun _ _ => .idle⟩ : Wire ι β α).data? i j = some data)
  (hy : (s j).find (.recv, i) = some y) (hlen : y.bytes = data.length)
include hcap hdata hy hlen

/-- The next byte passes through the buffer. -/
theorem exists_pass_byte {k : ℕ} (hk : k < data.length) :
    ∃ l, Lts.Run (unitStep capacity) (fun _ _ => True)
      ⟨s, conns i j ⟨k, [], data.take k⟩⟩ l ⟨s, conns i j ⟨k + 1, [], data.take (k + 1)⟩⟩ := by
  set b := (data.drop k).take 1 with hb
  have hone : b.length = 1 := by
    rw [hb, List.length_take, List.length_drop]
    omega
  have htake : data.take k ++ b = data.take (k + 1) := by rw [hb, List.take_add]
  have hwrite : unitStep capacity (⟨s, conns i j ⟨k, [], data.take k⟩⟩ : Wire ι β α)
      (.write i j 1) ⟨s, conns i j ⟨k + 1, b, data.take k⟩⟩ := by
    have hflow : (Label.write i j 1).flow b i j ⟨k, [], data.take k⟩
        = ⟨k + 1, b, data.take k⟩ := by
      rw [Label.flow, if_pos ⟨rfl, rfl⟩, hone, List.nil_append]
    refine ⟨⟨b, ⟨data, hdata, ?_, hone, Nat.one_pos, ?_⟩, fun q => rfl,
      flow_conns hflow fun _ _ h => if_neg h⟩, rfl⟩
    · simp only [conns, and_self, if_true, hb]
    · simp only [conns, and_self, if_true, List.length_nil]
      omega
  have hread : unitStep capacity (⟨s, conns i j ⟨k + 1, b, data.take k⟩⟩ : Wire ι β α)
      (.read i j 1) ⟨s, conns i j ⟨k + 1, [], data.take (k + 1)⟩⟩ := by
    have hflow : (Label.read i j 1).flow b i j ⟨k + 1, b, data.take k⟩
        = ⟨k + 1, [], data.take (k + 1)⟩ := by
      rw [Label.flow, if_pos ⟨rfl, rfl⟩, List.drop_length, htake]
    refine ⟨⟨b, ⟨y, hy, ?_, hone, Nat.one_pos, ?_⟩, fun q => rfl,
      flow_conns hflow fun _ _ h => if_neg h⟩, rfl⟩
    · simp only [conns, and_self, if_true]
      rw [List.take_of_length_le (Nat.le_of_eq hone)]
    · simp only [conns, and_self, if_true, List.length_take]
      omega
  exact ⟨_, .cons hwrite trivial (.single hread trivial)⟩

/-- The first `k` bytes pass. -/
theorem exists_pass {k : ℕ} (hk : k ≤ data.length) :
    ∃ l, Lts.Run (unitStep capacity) (fun _ _ => True)
      ⟨s, fun _ _ => .idle⟩ l ⟨s, conns i j ⟨k, [], data.take k⟩⟩ := by
  induction k with
  | zero =>
      refine ⟨[], ?_⟩
      rw [List.take_zero, ← conns_idle (i := i) (j := j)]
      exact .nil _
  | succ k ih =>
      obtain ⟨l₁, hl₁⟩ := ih (Nat.le_of_succ_le hk)
      obtain ⟨l₂, hl₂⟩ := exists_pass_byte hcap hdata hy hlen hk
      exact ⟨_, hl₁.append hl₂⟩

end Pass

/-- **A rendezvous is a run over streams** with room for one byte or more. -/
theorem run_of_rendezvous (hcap : 1 ≤ capacity) {a : Rendezvous.Label ι}
    (h : Rendezvous.step s a t) (hm : Rendezvous.Matched s a)
    (hwide : ∀ i k x, (s i).find k = some x → 0 < x.width) :
    ∃ l, Lts.Run (unitStep capacity) (fun _ _ => True)
      ⟨s, fun _ _ => .idle⟩ l ⟨t, fun _ _ => .idle⟩ := by
  obtain ⟨d, hd, hplay⟩ := h
  cases a with
  | act r =>
      obtain rfl : d = [] := hd
      exact ⟨[.act r], .single ⟨⟨[], rfl, hplay, fun _ _ => rfl⟩, trivial⟩ trivial⟩
  | comm i j =>
      obtain ⟨hij, hoffer⟩ := hd
      have hi := hplay i
      have hj := hplay j
      simp only [Rendezvous.Label.role, if_true] at hi
      simp only [Rendezvous.Label.role, if_neg (Ne.symm hij), if_true] at hj
      obtain ⟨x, hx, rfl⟩ := Option.map_eq_some_iff.mp hoffer
      obtain ⟨y, hy, -⟩ := Option.map_eq_some_iff.mp hj
      obtain ⟨hslice, hwidth⟩ := hm x y hx hy
      set data := octets x.width ((s i).mem.read x.slice) with hdata
      have hdata? : (⟨s, fun _ _ => .idle⟩ : Wire ι β α).data? i j = some data := by
        rw [data?, hx, Option.map_some]
      have hlen : y.bytes = data.length := by
        rw [hdata, length_octets, Mem.length_read, Xfer.bytes, hslice, hwidth]
      have hcells : cells data = (s i).mem.read x.slice := cells_octets (hwide i _ x hx) _
      obtain ⟨l, hl⟩ := exists_pass hcap hdata? hy hlen le_rfl
      rw [List.take_length] at hl
      -- both return, the sender first
      let mid : Wire ι β α := ⟨Function.update s i (t i), conns i j ⟨0, [], data⟩⟩
      have hsent : unitStep capacity ⟨s, conns i j ⟨data.length, [], data⟩⟩ (.sent i j) mid := by
        have hflow : (Label.sent i j).flow ([] : List (Octet α)) i j ⟨data.length, [], data⟩
            = ⟨0, [], data⟩ := if_pos ⟨rfl, rfl⟩
        refine ⟨⟨[], ⟨rfl, data, hdata?, ?_⟩, fun q => ?_,
          flow_conns hflow fun _ _ h => if_neg h⟩, trivial⟩
        · simp only [conns, and_self, if_true]
        · by_cases hq : q = i
          · subst hq
            obtain ⟨x', hx', hxt⟩ := Option.map_eq_some_iff.mp hi
            obtain rfl := Option.some.inj (hx.symm.trans hx')
            have hdir : x.dir = .send := congrArg Prod.fst (Node.key_of_find hx)
            simp only [Xfer.land, hdir] at hxt
            simp [Label.role, mid, Node.play, hx, Xfer.land, hdir, hxt]
          · simp [Label.role, hq, mid, Node.play]
      have hreceived : unitStep capacity mid (.received i j) ⟨t, fun _ _ => .idle⟩ := by
        have hmidj : mid.node j = s j := Function.update_of_ne (Ne.symm hij) _ _
        have hconn : mid.conn i j = ⟨0, [], data⟩ := if_pos ⟨rfl, rfl⟩
        have hflow : (Label.received i j).flow data i j ⟨0, [], data⟩ = .idle := if_pos ⟨rfl, rfl⟩
        refine ⟨⟨data, ⟨by rw [hconn], y, by rw [hmidj]; exact hy, hlen.symm⟩, fun q => ?_,
          fun i' j' => ?_⟩, trivial⟩
        · rw [hcells]
          by_cases hq : q = j
          · subst hq
            simpa [Label.role, hmidj] using hj
          · by_cases hqi : q = i
            · subst hqi
              simp [Label.role, hq, mid, Node.play]
            · have hq' := hplay q
              simp only [Rendezvous.Label.role, if_neg hq, if_neg hqi] at hq'
              simpa [Label.role, hq, mid, Function.update_of_ne hqi, Node.play] using hq'
        · rw [← flow_conns hflow (fun _ _ h => if_neg h) i' j', conns_idle]
      exact ⟨_, hl.append (.cons hsent trivial (.single hreceived trivial))⟩

end Wire

/-! ### Schedules -/

namespace Schedule

variable {R : ι → Prop} [DecidablePred R] {P : ι → Prog ι β α} {C : Script ι β α}
  (h : Schedule R P C) (hwide : C.Wide) {capacity : ℕ} (hcap : 1 ≤ capacity)
  (m : ι → Mem β α)
include h hwide hcap

/-- The script is a run over streams. -/
theorem exists_wire_run : ∃ ls t,
    Lts.Run (Wire.unitStep capacity) (fun _ _ => True) (Wire.init (team R P) m) ls
        ⟨t, fun _ _ => (.idle : Conn α)⟩ ∧
      (∀ r, (t r).Returned true) ∧ ∀ r, (t r).mem = Script.exec C m r := by
  obtain ⟨ls, t, hrun, hret, hmem⟩ := h.exists_run m
  obtain ⟨ls', hls'⟩ := hrun.simulate (f := fun s => Wire.mk s fun _ _ => .idle)
    fun {s a t} hstep ⟨hmatch, D, E, hC, hawaits⟩ =>
      Wire.run_of_rendezvous hcap hstep hmatch fun i k x hx => by
        have hmem : .xfer x ∈ Script.project i E := (hawaits.performs i).mem_of_find hx
        refine Script.wide_of_mem_project (fun e he => hwide e ?_) hmem
        rw [hC]
        exact List.mem_append_right D he
  exact ⟨ls', t, hls', hret, hmem⟩

/-- **Every run over streams is a part of a complete one**, and no run is longer than
those that move byte by byte. -/
theorem wire_rest : ∃ (f : Wire ι β α) (steps : ℕ),
    (∀ r, (f.node r).Returned true) ∧ (∀ i j, f.conn i j = .idle) ∧
      (∀ r, (f.node r).mem = Script.exec C m r) ∧
      ∀ l s, Lts.Run (Wire.step capacity) (fun _ _ => True) (Wire.init (team R P) m) l s →
        l.length ≤ steps ∧ ∃ l', Lts.Run (Wire.step capacity) (fun _ _ => True) s l' f := by
  obtain ⟨ls, t, hrun, hret, hmem⟩ := h.exists_wire_run hwide hcap m
  refine ⟨⟨t, fun _ _ => .idle⟩, ls.length, hret, fun _ _ => rfl, hmem, fun l s hl => ?_⟩
  obtain ⟨l₁, hl₁, hlen⟩ := Wire.unit_run_of_run hl
  have hterminal : (Wire.unitStep capacity).Terminal (⟨t, fun _ _ => .idle⟩ : Wire ι β α) :=
    fun a u hu => Wire.terminal_of_finished (fun r => ⟨true, hret r⟩) a u hu.1
  obtain ⟨l₂, hperm, hl₂⟩ := (Wire.unit_commuting capacity).exists_rest
    (raceFree_start h.raceFree_team m) hrun hterminal hl₁
  refine ⟨?_, l₂, Wire.run_of_unit_run hl₂⟩
  rw [← hperm.length_eq, List.length_append]
  omega

end Schedule

end MiniCcl
