import NexusCore.Library.Stock
import NexusCore.Custody

/-!
# The size of the pool

As far as numbers go, a pool is a bounded stock of idle objects: `Acquire` takes from it and
`Release` puts back, and every run of the clients is a run of the stock (`level_of_run`).  The
capacity bound, the comparison of two pools and the accounts of the objects allocated and
discarded are results about stocks, read back through that run.
-/

open Transition

namespace NexusCore

variable {C T : Type*}

/-! ## Events that count -/

/-- An `Acquire` that created an object. -/
def allocates : Event C T → Bool
  | (.acquire _, .acquired _ _ _ true) => true
  | _ => false

/-- A `Release` that destroyed the object. -/
def discards : Event C T → Bool
  | (.release _ (some _), .released _ _ true) => true
  | _ => false

/-- What an action asks of the pool. -/
def demand : Action C T → Option Stock.Demand
  | .acquire _ => some .take
  | .release _ (some _) => some .put
  | _ => none

/-- What a stock of idle objects does in the event. -/
def outcome (e : Event C T) : Option Stock.Outcome :=
  match demand e.1 with
  | some .take => some (if allocates e then .make else .serve)
  | some .put => some (if discards e then .spill else .keep)
  | none => none

/-- The number of `Acquire` calls that created an object. -/
def allocations (tr : List (Event C T)) : ℕ := tr.countP allocates

/-- The number of objects `Release` destroyed. -/
def discarded (tr : List (Event C T)) : ℕ := tr.countP discards

/-- The number of `Acquire` calls. -/
def acquires (tr : List (Event C T)) : ℕ := tr.countP fun e => demand e.1 = some .take

/-- The number of `Release` calls with a pointer that is not null. -/
def releases (tr : List (Event C T)) : ℕ := tr.countP fun e => demand e.1 = some .put

/-- The number of objects acquired and not yet released. -/
def held (tr : List (Event C T)) : ℕ := acquires tr - releases tr

theorem demand_of_allocates {e : Event C T} (h : allocates e = true) : demand e.1 = some .take := by
  unfold allocates at h
  split at h
  · rfl
  · cases h

theorem demand_of_discards {e : Event C T} (h : discards e = true) : demand e.1 = some .put := by
  unfold discards at h
  split at h
  · rfl
  · cases h

theorem map_outcome (e : Event C T) : (outcome e).map Stock.Outcome.demand = demand e.1 := by
  unfold outcome
  split <;> rename_i hd
  · by_cases h : allocates e = true <;> simp [h, hd, Stock.Outcome.demand]
  · by_cases h : discards e = true <;> simp [h, hd, Stock.Outcome.demand]
  · exact hd.symm

theorem outcome_eq_make_iff (e : Event C T) : outcome e = some .make ↔ allocates e = true := by
  unfold outcome
  constructor
  · intro h
    split at h
    · simpa using h
    · split_ifs at h <;> cases h
    · cases h
  · intro h
    rw [demand_of_allocates h]
    simp [h]

theorem outcome_eq_spill_iff (e : Event C T) : outcome e = some .spill ↔ discards e = true := by
  unfold outcome
  constructor
  · intro h
    split at h
    · split_ifs at h <;> cases h
    · simpa using h
    · cases h
  · intro h
    rw [demand_of_discards h]
    simp [h]

theorem allocations_eq (tr : List (Event C T)) :
    allocations tr = (tr.filterMap outcome).count .make := by
  rw [List.count_filterMap]
  apply List.countP_congr
  intro e _
  rw [beq_iff_eq, outcome_eq_make_iff]

theorem discarded_eq (tr : List (Event C T)) :
    discarded tr = (tr.filterMap outcome).count .spill := by
  rw [List.count_filterMap]
  apply List.countP_congr
  intro e _
  rw [beq_iff_eq, outcome_eq_spill_iff]

theorem acquires_eq (tr : List (Event C T)) : acquires tr = Stock.takes (tr.filterMap outcome) := by
  unfold acquires Stock.takes
  rw [List.countP_filterMap]
  apply List.countP_congr
  intro e _
  rw [← map_outcome]
  cases outcome e <;> simp

theorem releases_eq (tr : List (Event C T)) : releases tr = Stock.puts (tr.filterMap outcome) := by
  unfold releases Stock.puts
  rw [List.countP_filterMap]
  apply List.countP_congr
  intro e _
  rw [← map_outcome]
  cases outcome e <;> simp

theorem held_eq (tr : List (Event C T)) : held tr = Stock.out (tr.filterMap outcome) := by
  rw [held, Stock.out, acquires_eq, releases_eq]

theorem peak_held (tr : List (Event C T)) :
    Stock.peak held tr = Stock.peak Stock.out (tr.filterMap outcome) := by
  rw [← Stock.peak_filterMap]
  exact congrArg (fun f => Stock.peak f tr) (funext held_eq)

/-! ## The pool as a stock -/

variable [DecidableEq C] [Inhabited T]

theorem stock_step {s t : State C T} {e : Event C T} (h : Move s e t) :
    match outcome e with
    | none => t.memoryPool.getPoolSize = s.memoryPool.getPoolSize
    | some o =>
      Stock.Step s.memoryPool.maxSize s.memoryPool.getPoolSize o t.memoryPool.getPoolSize := by
  cases h with
  | allocate hempty =>
    simp only [MemoryPool.getPoolSize, hempty, List.length_nil]
    exact .make
  | recycle hpool =>
    simp only [MemoryPool.getPoolSize, hpool, List.length_cons]
    exact .serve _
  | store _ hroom =>
    simp only [MemoryPool.getPoolSize, List.length_append, List.length_singleton]
    exact .keep hroom
  | discard _ hfull => exact .spill hfull
  | _ => rfl

/-- `Acquire` creates an object only when it finds the pool empty. -/
theorem size_of_allocates {s t : State C T} {e : Event C T} (hstep : Step s e t)
    (halloc : allocates e = true) : s.memoryPool.getPoolSize = 0 := by
  have hmove := step_iff_move.1 hstep
  cases hmove with
  | allocate hempty => rw [MemoryPool.getPoolSize, hempty, List.length_nil]
  | _ => cases halloc

/-- Every run of the clients is a run of the stock. -/
theorem level_of_run {initialSize maxSize : ℕ} {tr : List (Event C T)} {s : State C T}
    (hrun : Run initialSize maxSize tr s) :
    Path (Stock.Step maxSize) initialSize (tr.filterMap outcome) s.memoryPool.getPoolSize := by
  have hstart : (start C T initialSize maxSize).memoryPool.maxSize = maxSize ∧
      (start C T initialSize maxSize).memoryPool.getPoolSize = initialSize := by
    simp [start_eq, MemoryPool.getPoolSize]
  obtain ⟨n, hpath, -, hn⟩ := Path.simulate (Stock.Step maxSize) outcome
    (fun (s : State C T) n => s.memoryPool.maxSize = maxSize ∧ s.memoryPool.getPoolSize = n)
    (fun hR hstep hnone => by
      have hmove := step_iff_move.1 hstep
      have := stock_step hmove
      rw [hnone] at this
      exact ⟨hmove.maxSize_eq.trans hR.1, this.trans hR.2⟩)
    (fun hR hstep hsome => by
      have hmove := step_iff_move.1 hstep
      have := stock_step hmove
      rw [hsome, hR.1, hR.2] at this
      exact ⟨_, this, hmove.maxSize_eq.trans hR.1, rfl⟩)
    hrun hstart
  rwa [hn]

/-! ## The capacity -/

/-- Only a constructor that preallocates more than `max_size` objects brings the pool above its
capacity, and no call raises it further. -/
theorem size_le_of_run {initialSize maxSize : ℕ} {tr : List (Event C T)} {s : State C T}
    (hrun : Run initialSize maxSize tr s) : s.memoryPool.getPoolSize ≤ max initialSize maxSize :=
  Stock.level_le (level_of_run hrun)

variable (C T) in
/-- `GetPoolSize` stays within `max_size` in every run exactly when the constructor was not asked
for more than `max_size` objects. -/
theorem capacity_iff (initialSize maxSize : ℕ) :
    (∀ (tr : List (Event C T)) (s : State C T), Run initialSize maxSize tr s →
      s.memoryPool.getPoolSize ≤ maxSize) ↔ initialSize ≤ maxSize := by
  constructor
  · intro h
    have hstart := h [] _ (Path.nil _)
    rw [start_eq] at hstart
    simpa [MemoryPool.getPoolSize] using hstart
  · intro hle tr s hrun
    have hsize := size_le_of_run hrun
    rwa [max_eq_right hle] at hsize

/-- `MemoryPool<T> pool(2000)` starts with 2000 idle objects, although `max_size` is 1000. -/
theorem capacity_exceeded_after_construction :
    ¬ ∀ (tr : List (Event ℕ PacketBuffer)) (s : State ℕ PacketBuffer), Run 2000 1000 tr s →
      s.memoryPool.getPoolSize ≤ 1000 := by
  intro h
  have hstart := h [] (start ℕ PacketBuffer 2000 1000) (Path.nil _)
  rw [start_eq] at hstart
  simp [MemoryPool.getPoolSize] at hstart

/-! ## Two pools under the same calls -/

/-- A call of `Acquire` or `Release`, whoever makes it and with whatever object. -/
inductive Call where
  | acquire
  | releaseNull
  | release
  deriving DecidableEq

def call : Action C T → Option Call
  | .acquire _ => some .acquire
  | .release _ none => some .releaseNull
  | .release _ (some _) => some .release
  | _ => none

/-- The calls of the clients, in order. -/
def calls (tr : List (Event C T)) : List Call := tr.filterMap fun e => call e.1

def Call.demand : Call → Option Stock.Demand
  | .acquire => some .take
  | .releaseNull => none
  | .release => some .put

omit [DecidableEq C] [Inhabited T] in
theorem demands_eq (tr : List (Event C T)) :
    (tr.filterMap outcome).map Stock.Outcome.demand = (calls tr).filterMap Call.demand := by
  rw [List.map_filterMap, calls, List.filterMap_filterMap]
  apply List.filterMap_congr
  intro e _
  rw [map_outcome]
  obtain ⟨a, r⟩ := e
  cases a with
  | release c p => cases p <;> rfl
  | _ => rfl

/-- Call for call, a pool built with larger parameters is at least as full as the other one and
has allocated at most as often. -/
theorem larger_pool_dominates {initialSize initialSize' maxSize maxSize' : ℕ}
    (hinitial : initialSize ≤ initialSize') (hmax : maxSize ≤ maxSize')
    {tr tr' : List (Event C T)} {s s' : State C T} (hrun : Run initialSize maxSize tr s)
    (hrun' : Run initialSize' maxSize' tr' s') (hcalls : calls tr = calls tr') :
    s.memoryPool.getPoolSize ≤ s'.memoryPool.getPoolSize ∧ allocations tr' ≤ allocations tr := by
  rw [allocations_eq, allocations_eq]
  refine Stock.monotone hinitial hmax (level_of_run hrun) (level_of_run hrun') ?_
  rw [demands_eq, demands_eq, hcalls]

/-- The calls of `sampleTrace` on a pool for two objects, which covers them. -/
def ampleTrace : List (Event ℕ PacketBuffer) :=
  [(.acquire 0, .acquired (some 0) (some []) 2 false),
    (.acquire 1, .acquired (some 1) (some []) 1 false),
    (.release 0 (some 0), .released 0 true false),
    (.release 1 (some 1), .released 1 true false),
    (.acquire 1, .acquired (some 0) (some []) 2 false)]

def ampleState : State ℕ PacketBuffer := ⟨⟨[some 1], 2⟩, ⟨[[], []], []⟩, [(1, 0)]⟩

theorem larger_pool_dominates_sample :
    sampleState.memoryPool.getPoolSize ≤ ampleState.memoryPool.getPoolSize ∧
      allocations ampleTrace ≤ allocations sampleTrace :=
  larger_pool_dominates (by decide : 1 ≤ 2) (by decide : 1 ≤ 2) run_sample
    (by decide : Run 2 2 ampleTrace ampleState) (by decide)

/-! ## Objects held, allocated and discarded -/

/-- The client neither brings in an object of its own nor destroys one. -/
def internal : Action C T → Bool
  | .create _ => false
  | .destroy _ _ => false
  | _ => true

omit [DecidableEq C] [Inhabited T] in
theorem acquires_concat (tr : List (Event C T)) (e : Event C T) :
    acquires (tr ++ [e]) = acquires tr + if demand e.1 = some .take then 1 else 0 := by
  simp [acquires, List.countP_append, List.countP_singleton]

omit [DecidableEq C] [Inhabited T] in
theorem releases_concat (tr : List (Event C T)) (e : Event C T) :
    releases (tr ++ [e]) = releases tr + if demand e.1 = some .put then 1 else 0 := by
  simp [releases, List.countP_append, List.countP_singleton]

/-- While no object comes from outside the pool or is destroyed by a client, the clients own the
objects acquired and not yet released. -/
theorem acquires_eq_releases_add {initialSize maxSize : ℕ} {tr : List (Event C T)} {s : State C T}
    (hrun : Run initialSize maxSize tr s) (hinternal : ∀ e ∈ tr, internal e.1 = true) :
    acquires tr = releases tr + s.owned.length := by
  revert hinternal
  refine Path.history (I := fun tr (s : State C T) => (∀ e ∈ tr, internal e.1 = true) →
    acquires tr = releases tr + s.owned.length) ?_ ?_ hrun
  · intro _
    simp [acquires, releases, start_eq]
  · intro tr s e t hpre ih hstep hinternal
    have htr := ih fun e' he' => hinternal e' (List.mem_append_left _ he')
    have he : internal e.1 = true := hinternal e (List.mem_append_right _ List.mem_cons_self)
    rw [acquires_concat, releases_concat]
    have hmove := step_iff_move.1 hstep
    cases hmove with
    | @allocate c _ =>
      show acquires tr + 1 = releases tr + 0 + (s.owned ++ [(c, s.heap.created)]).length
      rw [List.length_append, List.length_singleton]
      omega
    | @recycle c p q hpool =>
      obtain ⟨k, -, hk⟩ := custody_of_run hpre
      cases p with
      | none => exact absurd (hpool ▸ List.mem_cons_self) hk.noNull
      | some o =>
        show acquires tr + 1 = releases tr + 0 + (s.owned ++ [(c, o)]).length
        rw [List.length_append, List.length_singleton]
        omega
    | @store c o howned _ | @discard c o howned _ =>
      show acquires tr + 0 = releases tr + 1 + (s.owned.erase (c, o)).length
      have hpos := List.length_pos_of_mem howned
      rw [List.length_erase_of_mem howned]
      omega
    | ignore | report | write _ => exact htr
    | create | destroy _ => cases he

/-- No more objects are put back than were taken, at any moment of such a run. -/
theorem covered_of_run {initialSize maxSize : ℕ} {tr : List (Event C T)} {s : State C T}
    (hrun : Run initialSize maxSize tr s) (hinternal : ∀ e ∈ tr, internal e.1 = true) :
    Stock.Covered (tr.filterMap outcome) := by
  intro pre hpre
  obtain ⟨tr₁, ⟨tr₂, rfl⟩, rfl⟩ := List.prefix_filterMap_iff.1 hpre
  obtain ⟨t, hrun₁, -⟩ := Path.append_iff.1 hrun
  have hbalance := acquires_eq_releases_add hrun₁ fun e he =>
    hinternal e (List.mem_append_left _ he)
  rw [← acquires_eq, ← releases_eq, hbalance]
  exact Nat.le_add_right _ _

/-- While the clients only pass the pool's own objects around, the objects in the pool and with
the clients stay between `min initial_size max_size` and the larger of `initial_size` and the
largest number held so far, so `Acquire` allocates only when at least the former number is held.
If that largest number does not exceed `max_size`, the objects allocated are those it needs beyond
`initial_size`, and no more are discarded than `initial_size` exceeds `max_size` by. -/
theorem footprint {initialSize maxSize : ℕ} {tr : List (Event C T)} {s : State C T}
    (hrun : Run initialSize maxSize tr s) (hinternal : ∀ e ∈ tr, internal e.1 = true) :
    held tr = s.owned.length ∧
    (min initialSize maxSize ≤ s.memoryPool.getPoolSize + held tr ∧
      s.memoryPool.getPoolSize + held tr ≤ max initialSize (Stock.peak held tr)) ∧
    (∀ c r t, Step s (.acquire c, r) t → allocates (.acquire c, r) = true →
      min initialSize maxSize ≤ held tr) ∧
    (Stock.peak held tr ≤ maxSize → allocations tr = Stock.peak held tr - initialSize ∧
      discarded tr ≤ initialSize - maxSize) := by
  have hacc := Stock.accounting (covered_of_run hrun hinternal) (level_of_run hrun)
  have hfloor : min initialSize maxSize ≤ s.memoryPool.getPoolSize + held tr := by
    rw [held_eq]
    exact hacc.floor
  refine ⟨?_, ⟨hfloor, ?_⟩, ?_, ?_⟩
  · rw [held, acquires_eq_releases_add hrun hinternal, Nat.add_sub_cancel_left]
  · rw [peak_held, held_eq]
    exact hacc.ceiling
  · intro c r t hstep halloc
    have hempty := size_of_allocates hstep halloc
    rwa [hempty, Nat.zero_add] at hfloor
  · rw [peak_held, allocations_eq, discarded_eq]
    exact hacc.exact

/-- Two clients on a pool built with one object and room for two, both holding an object twice. -/
def reuseTrace : List (Event ℕ PacketBuffer) :=
  [(.acquire 0, .acquired (some 0) (some []) 1 false),
    (.acquire 1, .acquired (some 1) (some []) 0 true),
    (.release 0 (some 0), .released 0 true false),
    (.acquire 0, .acquired (some 0) (some []) 1 false)]

def reuseState : State ℕ PacketBuffer := ⟨⟨[], 2⟩, ⟨[[], []], []⟩, [(1, 1), (0, 0)]⟩

theorem footprint_reuse :
    held reuseTrace = reuseState.owned.length ∧
    (min 1 2 ≤ reuseState.memoryPool.getPoolSize + held reuseTrace ∧
      reuseState.memoryPool.getPoolSize + held reuseTrace ≤ max 1 (Stock.peak held reuseTrace)) ∧
    (∀ c r t, Step reuseState (.acquire c, r) t → allocates (.acquire c, r) = true →
      min 1 2 ≤ held reuseTrace) ∧
    (Stock.peak held reuseTrace ≤ 2 → allocations reuseTrace = Stock.peak held reuseTrace - 1 ∧
      discarded reuseTrace ≤ 1 - 2) :=
  footprint (by decide : Run 1 2 reuseTrace reuseState) (by decide)

end NexusCore
