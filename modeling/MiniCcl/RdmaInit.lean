/-
MiniCcl/RdmaInit.lean

`InitRdmaResources` and the memory of the buffer pool.

Every call that can fail is an input (`Results`), and the calls that create and
destroy something are logged in order.  If the pool cannot be set up, two pieces of
code clean it up: the loop at the failure in `InitBufferPool`, which leaves the
pointers as they are, and then the destructor of `RdmaResources`, which releases
what the pointers name.  So every buffer before the failing one is released twice,
and all is well only if the very first buffer fails: `failed_init_iff`.
-/
import MiniCcl.Rdma

namespace MiniCcl.RdmaInit

open TransportRdma (PoolConfig)

/-! ### The code -/

/-- `RdmaBuffer`.  A handle or an address is a number, and none is `nullptr`. -/
structure RdmaBuffer where
  data : Option ℕ := none
  size : ℕ := 0
  mr : Option ℕ := none
  id : ℤ := -1
  inUse : Bool := false
  deriving DecidableEq, Repr

/-- `RdmaResources`, without what is set after the initialisation. -/
structure RdmaResources where
  ctx : Option ℕ := none
  pd : Option ℕ := none
  cq : Option ℕ := none
  qp : Option ℕ := none
  compChannel : Option ℕ := none
  buffers : List RdmaBuffer := []
  deriving DecidableEq, Repr

/-- The results of the calls; `malloc i` and `regMr i` are those for buffer `i`. -/
structure Results where
  acquire : Option (ℕ × ℕ)
  queryPort : Bool
  createCompChannel : Option ℕ
  createCq : Option ℕ
  createQp : Option ℕ
  malloc : ℕ → Option ℕ
  regMr : ℕ → Option ℕ

/-- The calls that create or destroy something. -/
inductive Event
  | acquire
  | createCompChannel (handle : ℕ)
  | createCq (handle : ℕ)
  | createQp (handle : ℕ)
  | malloc (data : ℕ)
  | regMr (mr data : ℕ)
  | deregMr (mr : ℕ)
  | free (data : ℕ)
  | destroyQp (handle : ℕ)
  | destroyCq (handle : ℕ)
  | destroyCompChannel (handle : ℕ)
  | release
  deriving DecidableEq, Repr

/-- `ibv_dereg_mr` and `free`, each unless its pointer is null. -/
def RdmaBuffer.clean (buf : RdmaBuffer) : List Event :=
  (buf.mr.map Event.deregMr).toList ++ (buf.data.map Event.free).toList

/-- `RdmaResources::~RdmaResources` -/
def RdmaResources.destroy (res : RdmaResources) : List Event :=
  res.buffers.flatMap RdmaBuffer.clean ++ (res.qp.map Event.destroyQp).toList ++
    (res.cq.map Event.destroyCq).toList ++ (res.compChannel.map Event.destroyCompChannel).toList

/-- The loop of `InitBufferPool`: `ready` are the buffers before the current one, and
after a failure they are cleaned up and kept. -/
def initBuffers (v : Results) (size : ℕ) (ready : List RdmaBuffer) :
    List RdmaBuffer → Bool × List RdmaBuffer × List Event
  | [] => (true, ready, [])
  | _ :: rest =>
      let i := ready.length
      match v.malloc i with
      -- the buffers before it are released, and their pointers stay as they are
      | none =>
          (false, ready ++ ⟨none, size, none, i, false⟩ :: rest, ready.flatMap RdmaBuffer.clean)
      | some data =>
          match v.regMr i with
          -- only for this buffer `data` is set to null after it has been freed
          | none =>
              (false, ready ++ ⟨none, size, none, i, false⟩ :: rest,
                [.malloc data, .free data] ++ ready.flatMap RdmaBuffer.clean)
          | some mr =>
              let next := initBuffers v size (ready ++ [⟨data, size, mr, i, false⟩]) rest
              (next.1, next.2.1, [.malloc data, .regMr mr data] ++ next.2.2)

/-- `InitBufferPool` -/
def initBufferPool (c : PoolConfig) (v : Results) (res : RdmaResources) :
    Bool × RdmaResources × List Event :=
  let pool := initBuffers v c.bufferSize [] (List.replicate c.bufferCount {})
  (pool.1, { res with buffers := pool.2.1 }, pool.2.2)

/-- The end of `InitRdmaResources` without success, reached after the calls `log`:
`rdma_res.reset()`, then `Release`. -/
def giveUp (res : RdmaResources) (log : List Event) : Bool × Option RdmaResources × List Event :=
  (false, none, log ++ res.destroy ++ [.release])

/-- `InitRdmaResources`: whether it succeeded, `rdma_res`, and the calls. -/
def initRdmaResources (c : PoolConfig) (v : Results) :
    Bool × Option RdmaResources × List Event :=
  match v.acquire with
  -- nothing has been acquired, so nothing is released
  | none => (false, none, RdmaResources.destroy {})
  | some (ctx, pd) =>
      let res : RdmaResources := { ctx := ctx, pd := pd }
      let log : List Event := [.acquire]
      if !v.queryPort then giveUp res log
      else
        match v.createCompChannel with
        | none => giveUp res log
        | some ch =>
            let res := { res with compChannel := some ch }
            let log := log ++ [.createCompChannel ch]
            match v.createCq with
            | none => giveUp res log
            | some cq =>
                let res := { res with cq := some cq }
                let log := log ++ [.createCq cq]
                match v.createQp with
                | none => giveUp res log
                | some qp =>
                    let res := { res with qp := some qp }
                    let log := log ++ [.createQp qp]
                    let pool := initBufferPool c v res
                    if pool.1 then (true, some pool.2.1, log ++ pool.2.2)
                    else giveUp pool.2.1 (log ++ pool.2.2)

/-! ### What the log should be -/

/-- Memory is freed once and regions are deregistered once, nothing else is, and a
region is deregistered before its memory is freed. -/
structure ReleasedOnce (log : List Event) : Prop where
  free : ∀ data, .malloc data ∈ log → log.count (.free data) = 1
  free_only : ∀ data, .free data ∈ log → .malloc data ∈ log
  dereg : ∀ mr data, .regMr mr data ∈ log → log.count (.deregMr mr) = 1
  dereg_only : ∀ mr, .deregMr mr ∈ log → ∃ data, .regMr mr data ∈ log
  order : ∀ mr data, .regMr mr data ∈ log → ∀ before after,
    log = before ++ .free data :: after → .deregMr mr ∈ before

/-- How a buffer can fail. -/
inductive Failure
  | malloc
  | regMr
  deriving DecidableEq, Repr

/-- All calls succeed until `InitBufferPool` fails at buffer `i`. -/
structure Results.FailsAt (v : Results) (kind : Failure) (i : ℕ) : Prop where
  acquire : v.acquire.isSome
  queryPort : v.queryPort = true
  createCompChannel : v.createCompChannel.isSome
  createCq : v.createCq.isSome
  createQp : v.createQp.isSome
  before : ∀ j < i, (v.malloc j).isSome ∧ (v.regMr j).isSome
  fails : match kind with
    | .malloc => v.malloc i = none
    | .regMr => (v.malloc i).isSome ∧ v.regMr i = none

/-! ### The calls of a failed initialisation -/

/-- Buffer `i` once it has been set up. -/
def readyBuffer (v : Results) (size i : ℕ) : RdmaBuffer := ⟨v.malloc i, size, v.regMr i, i, false⟩

/-- The calls that set up buffer `i`. -/
def setUp (v : Results) (i : ℕ) : List Event :=
  match v.malloc i, v.regMr i with
  | some data, some mr => [.malloc data, .regMr mr data]
  | _, _ => []

/-- The calls for the buffer that fails. -/
def failing (v : Results) (i : ℕ) : List Event :=
  match v.malloc i with
  | none => []
  | some data => [.malloc data, .free data]

/-- The calls of one clean-up of the buffers before `i`. -/
def cleanUp (v : Results) (size i : ℕ) : List Event :=
  (List.range i).flatMap fun j => (readyBuffer v size j).clean

variable {v : Results} {kind : Failure} {i : ℕ}

theorem setUp_eq {data mr : ℕ} (hmalloc : v.malloc i = some data) (hregMr : v.regMr i = some mr) :
    setUp v i = [.malloc data, .regMr mr data] := by
  simp [setUp, hmalloc, hregMr]

/-- The loop stops at the buffer that fails. -/
theorem initBuffers_of_failsAt (h : v.FailsAt kind i) (size : ℕ) (ready rest : List RdmaBuffer)
    (hle : ready.length ≤ i) (hlt : i < ready.length + rest.length) :
    initBuffers v size ready rest
      = (false,
        (ready ++ (List.range' ready.length (i - ready.length)).map (readyBuffer v size))
          ++ ⟨none, size, none, i, false⟩ :: rest.drop (i - ready.length + 1),
        (List.range' ready.length (i - ready.length)).flatMap (setUp v) ++ failing v i
          ++ (ready ++ (List.range' ready.length (i - ready.length)).map
            (readyBuffer v size)).flatMap RdmaBuffer.clean) := by
  induction rest generalizing ready with
  | nil => exact absurd hlt (by simpa using hle)
  | cons buf rest ih =>
      rcases Nat.lt_or_eq_of_le hle with hbefore | hfail
      · -- this one can be set up
        obtain ⟨hmalloc, hregMr⟩ := h.before _ hbefore
        obtain ⟨data, hmalloc⟩ := Option.isSome_iff_exists.mp hmalloc
        obtain ⟨mr, hregMr⟩ := Option.isSome_iff_exists.mp hregMr
        have hready : readyBuffer v size ready.length
            = ⟨some data, size, some mr, ready.length, false⟩ := by
          rw [readyBuffer, hmalloc, hregMr]
        have hrest := ih (ready ++ [readyBuffer v size ready.length]) (by simp; omega)
          (by simp at hlt ⊢; omega)
        have hcount : i - ready.length = i - (ready.length + 1) + 1 := by omega
        rw [List.length_append, List.length_singleton] at hrest
        rw [hcount, List.range'_succ, initBuffers]
        simp only [hmalloc, hregMr, ← hready, hrest, List.map_cons, List.flatMap_cons,
          setUp_eq hmalloc hregMr, List.append_assoc, List.singleton_append, List.drop_succ_cons]
      · subst hfail
        rw [Nat.sub_self, initBuffers]
        have hfails := h.fails
        cases kind with
        | malloc => simp [failing, show v.malloc ready.length = none from hfails]
        | regMr =>
            obtain ⟨hmalloc, hregMr⟩ := hfails
            obtain ⟨data, hmalloc⟩ := Option.isSome_iff_exists.mp hmalloc
            simp [failing, hmalloc, hregMr]

/-- What a failed initialisation does: the buffers before the failing one are cleaned up
by the loop, and once more by the destructor. -/
theorem initRdmaResources_of_failsAt (h : v.FailsAt kind i) (c : PoolConfig)
    (hi : i < c.bufferCount) :
    ∃ ch cq qp, initRdmaResources c v
      = (false, none,
        [.acquire, .createCompChannel ch, .createCq cq, .createQp qp]
          ++ ((List.range i).flatMap (setUp v) ++ failing v i ++ cleanUp v c.bufferSize i)
          ++ (cleanUp v c.bufferSize i
            ++ [.destroyQp qp, .destroyCq cq, .destroyCompChannel ch, .release])) := by
  obtain ⟨⟨ctx, pd⟩, hacquire⟩ := Option.isSome_iff_exists.mp h.acquire
  obtain ⟨ch, hch⟩ := Option.isSome_iff_exists.mp h.createCompChannel
  obtain ⟨cq, hcq⟩ := Option.isSome_iff_exists.mp h.createCq
  obtain ⟨qp, hqp⟩ := Option.isSome_iff_exists.mp h.createQp
  have hpool := initBuffers_of_failsAt h c.bufferSize []
    (List.replicate c.bufferCount {}) (Nat.zero_le i) (by simpa using hi)
  have hrest : ∀ k, (List.replicate k ({} : RdmaBuffer)).flatMap RdmaBuffer.clean = [] := by
    intro k
    simp [List.flatMap_eq_nil_iff, RdmaBuffer.clean]
  simp only [List.length_nil, Nat.sub_zero, List.nil_append, ← List.range_eq_range',
    List.drop_replicate] at hpool
  refine ⟨ch, cq, qp, ?_⟩
  simp only [initRdmaResources, hacquire, h.queryPort, hch, hcq, hqp, initBufferPool, hpool,
    giveUp, RdmaResources.destroy, List.flatMap_append, List.flatMap_cons, hrest, List.flatMap_map,
    cleanUp]
  simp [RdmaBuffer.clean]

/-! ### When everything is released once -/

/-- The memory of a buffer before the failing one is allocated, and each clean-up
frees it. -/
theorem freed_by_cleanUp (h : v.FailsAt kind i) (size : ℕ) {j : ℕ} (hj : j < i) :
    ∃ data, .malloc data ∈ (List.range i).flatMap (setUp v) ∧
      0 < (cleanUp v size i).count (.free data) := by
  obtain ⟨hmalloc, hregMr⟩ := h.before j hj
  obtain ⟨data, hmalloc⟩ := Option.isSome_iff_exists.mp hmalloc
  obtain ⟨mr, hregMr⟩ := Option.isSome_iff_exists.mp hregMr
  have hmem : j ∈ List.range i := List.mem_range.mpr hj
  refine ⟨data, List.mem_flatMap.mpr ⟨j, hmem, ?_⟩, List.count_pos_iff.mpr ?_⟩
  · simp [setUp_eq hmalloc hregMr]
  · exact List.mem_flatMap.mpr ⟨j, hmem, by simp [readyBuffer, RdmaBuffer.clean, hmalloc]⟩

/-- **A failed initialisation releases everything exactly once if and only if it is
the first buffer that fails.** -/
theorem failed_init_iff (c : PoolConfig) (hi : i < c.bufferCount) (h : v.FailsAt kind i) :
    (initRdmaResources c v).1 = false ∧
      (ReleasedOnce (initRdmaResources c v).2.2 ↔ i = 0) := by
  obtain ⟨ch, cq, qp, hinit⟩ := initRdmaResources_of_failsAt h c hi
  rw [hinit]
  refine ⟨rfl, fun hreleased => ?_, ?_⟩
  · by_contra hne
    -- both clean-ups free the first buffer
    obtain ⟨data, hdata, hcount⟩ :=
      freed_by_cleanUp h c.bufferSize (Nat.pos_of_ne_zero hne)
    have honce := hreleased.free data (by simp only [List.mem_append, hdata, true_or, or_true])
    simp only [List.count_append] at honce
    omega
  · rintro rfl
    have hfailing : failing v 0 = [] ∨ ∃ data, failing v 0 = [.malloc data, .free data] := by
      unfold failing
      rcases v.malloc 0 with - | data
      · exact .inl rfl
      · exact .inr ⟨data, rfl⟩
    rcases hfailing with hnone | ⟨data, hsome⟩
    · simp only [hnone, cleanUp, List.range_zero, List.flatMap_nil]
      constructor <;> simp
    · simp only [hsome, cleanUp, List.range_zero, List.flatMap_nil]
      constructor <;> simp

/-- Two buffers, of which the second cannot be registered. -/
def secondFails : Results where
  acquire := some (1, 2)
  queryPort := true
  createCompChannel := some 3
  createCq := some 4
  createQp := some 5
  malloc i := some (10 + i)
  regMr i := if i = 0 then some 20 else none

theorem failsAt_secondFails : secondFails.FailsAt .regMr 1 := by
  refine ⟨rfl, rfl, rfl, rfl, rfl, fun j hj => ?_, rfl, rfl⟩
  obtain rfl : j = 0 := by omega
  exact ⟨rfl, rfl⟩

theorem failed_init_iff_two :
    (initRdmaResources ⟨4096, 2, by decide, by decide⟩ secondFails).1 = false ∧
      (ReleasedOnce (initRdmaResources ⟨4096, 2, by decide, by decide⟩ secondFails).2.2
        ↔ 1 = 0) :=
  failed_init_iff ⟨4096, 2, by decide, by decide⟩ (by decide) failsAt_secondFails

/-- The memory of the first buffer is freed twice. -/
theorem double_free_two :
    secondFails.FailsAt .regMr 1 ∧
      ¬ ReleasedOnce (initRdmaResources ⟨4096, 2, by decide, by decide⟩ secondFails).2.2 := by
  refine ⟨failsAt_secondFails, fun h => ?_⟩
  have honce := h.free 10 (by decide)
  exact absurd honce (by decide)

end MiniCcl.RdmaInit
