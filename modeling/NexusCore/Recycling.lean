import NexusCore.Library.Fifo
import NexusCore.Custody

/-!
# The order of recycling

`pool_` is a first-in-first-out queue of pointers: an `Acquire` that finds an object pops the front
and a `Release` that stores one pushes at the back.  The runs of the clients are therefore runs of
the queue specification, and what that says about histories carries over: the pool's contents are
a function of the objects stored and handed out so far, and the moment at which a stored object
is handed out again is known when it is stored.
-/

open Transition

namespace NexusCore

variable {C T : Type*}

/-! ## Histories -/

/-- The objects of the constructor, in the order of creation. -/
def constructed (initialSize : ℕ) : List UniquePtr := (List.range initialSize).map some

/-- The object that the event stores. -/
def storing : Event C T → Option UniquePtr
  | (.release _ (some o), .released _ true _) => some (some o)
  | _ => none

/-- What the event hands out of a pool that is not empty. -/
def handing : Event C T → Option UniquePtr
  | (.acquire _, .acquired p _ (_ + 1) _) => some p
  | _ => none

/-- What an `Acquire` returns, and whether it creates an object. -/
def acquiring : Event C T → Option (UniquePtr × Bool)
  | (.acquire _, .acquired p _ _ allocated) => some (p, allocated)
  | _ => none

/-- The objects that `Release` stored, in order. -/
def stored (tr : List (Event C T)) : List UniquePtr := tr.filterMap storing

/-- What the `Acquire` calls that found `pool_` non-empty returned, in order. -/
def handed (tr : List (Event C T)) : List UniquePtr := tr.filterMap handing

/-- What all `Acquire` calls returned, in order, each with whether it created an object. -/
def acquisitions (tr : List (Event C T)) : List (UniquePtr × Bool) := tr.filterMap acquiring

/-! ## The pool as a queue -/

/-- What an event does to the queue. -/
def queueOp : Event C T → Option (Fifo.Op UniquePtr)
  | (.acquire _, .acquired p _ _ false) => some (.pop p)
  | (.acquire _, .acquired _ _ _ true) => some .miss
  | (.release _ (some o), .released _ true _) => some (.push (some o))
  | _ => none

variable [DecidableEq C] [Inhabited T]

/-- A `Release` stores the object exactly when it finds fewer than `max_size_` in the pool, and
destroys it otherwise. -/
theorem release_stores_iff {s t : State C T} {c : C} {o : Obj} {found : ℕ} {kept discarded : Bool}
    (hstep : Step s (.release c (some o), .released found kept discarded) t) :
    found = s.memoryPool.getPoolSize ∧ (kept = true ↔ found < s.memoryPool.maxSize) ∧
      discarded = !kept := by
  have hmove := step_iff_move.1 hstep
  cases hmove with
  | store _ hroom => exact ⟨rfl, by simpa using hroom, rfl⟩
  | discard _ hfull => exact ⟨rfl, by simpa using hfull, rfl⟩

/-- What the events of a path say about the queue is what its operations say. -/
theorem queueOp_views {s t : State C T} {tr : List (Event C T)} (h : Path Step s tr t) :
    ∀ e ∈ tr, (queueOp e).bind Fifo.Op.pushed = storing e ∧
      (queueOp e).bind Fifo.Op.popped = handing e ∧
      (queueOp e).bind Fifo.Op.attempt =
        (acquiring e).map fun x => if x.2 then none else some x.1 := by
  refine h.labels ?_
  intro s e t hstep
  have hmove := step_iff_move.1 hstep
  cases hmove <;> exact ⟨rfl, rfl, rfl⟩

theorem queue_step {s t : State C T} {e : Event C T} (h : Move s e t) :
    match queueOp e with
    | none => t.memoryPool.pool = s.memoryPool.pool
    | some op => Fifo.Step s.memoryPool.pool op t.memoryPool.pool := by
  cases h with
  | allocate hempty =>
    simp only [queueOp, hempty]
    exact .miss
  | @recycle c p q hpool =>
    simp only [queueOp, hpool]
    exact .pop p q
  | @store c o _ _ => exact .push _ (some o)
  | _ => rfl

/-- The steps of the clients are operations of a queue, from any state. -/
theorem queue_of_path {s t : State C T} {tr : List (Event C T)} (h : Path Step s tr t) :
    Path Fifo.Step s.memoryPool.pool (tr.filterMap queueOp) t.memoryPool.pool := by
  obtain ⟨q, hpath, hq⟩ := Path.simulate Fifo.Step queueOp
    (fun (s : State C T) q => s.memoryPool.pool = q)
    (fun hR hstep hnone => by
      have := queue_step (step_iff_move.1 hstep)
      rw [hnone] at this
      exact this.trans hR)
    (fun hR hstep hsome => by
      have := queue_step (step_iff_move.1 hstep)
      rw [hsome, hR] at this
      exact ⟨_, this, rfl⟩)
    h rfl
  rwa [hq]

theorem pushed_eq {s t : State C T} {tr : List (Event C T)} (h : Path Step s tr t) :
    Fifo.pushed (tr.filterMap queueOp) = stored tr := by
  rw [Fifo.pushed, stored, List.filterMap_filterMap]
  exact List.filterMap_congr fun e he => (queueOp_views h e he).1

theorem popped_eq {s t : State C T} {tr : List (Event C T)} (h : Path Step s tr t) :
    Fifo.popped (tr.filterMap queueOp) = handed tr := by
  rw [Fifo.popped, handed, List.filterMap_filterMap]
  exact List.filterMap_congr fun e he => (queueOp_views h e he).2.1

theorem attempts_eq {s t : State C T} {tr : List (Event C T)} (h : Path Step s tr t) :
    Fifo.attempts (tr.filterMap queueOp) =
      (acquisitions tr).map fun x => if x.2 then none else some x.1 := by
  rw [Fifo.attempts, acquisitions, List.filterMap_filterMap, List.map_filterMap]
  exact List.filterMap_congr fun e he => (queueOp_views h e he).2.2

/-! ## The law -/

/-- The `i`-th `Acquire` from a state with more than `i` objects in the pool returns the `i`-th of
them and creates none. -/
theorem acquisitions_getElem? {s t : State C T} {tr : List (Event C T)} (h : Path Step s tr t)
    {i : ℕ} (hi : i < s.memoryPool.pool.length) {p : UniquePtr} {allocated : Bool}
    (hp : (acquisitions tr)[i]? = some (p, allocated)) :
    allocated = false ∧ s.memoryPool.pool[i]? = some p := by
  have hlen : i < (Fifo.attempts (tr.filterMap queueOp)).length := by
    rw [attempts_eq h, List.length_map]
    exact (List.getElem?_eq_some_iff.1 hp).1
  have hattempt := Fifo.attempts_getElem? (queue_of_path h) hi hlen
  rw [attempts_eq h, List.getElem?_map, hp, List.getElem?_eq_getElem hi] at hattempt
  cases allocated with
  | true => simp at hattempt
  | false =>
    rw [List.getElem?_eq_getElem hi]
    exact ⟨rfl, (Option.some.inj hattempt).symm⟩

/-- A stored object is returned by exactly the `Acquire` that comes after those for the objects in
front of it. -/
theorem returned_iff {initialSize maxSize : ℕ} {tr₀ tr₁ : List (Event C T)} {s₀ s₁ s : State C T}
    (hrun : Run initialSize maxSize tr₀ s₀) {c : C} {o : Obj} {k : ℕ} {discarded : Bool}
    (hstep : Step s₀ (.release c (some o), .released k true discarded) s₁)
    (hpath : Path Step s₁ tr₁ s) {i : ℕ} (hi : i ≤ k) {p : UniquePtr} {allocated : Bool}
    (hp : (acquisitions tr₁)[i]? = some (p, allocated)) :
    allocated = false ∧ (p = some o ↔ i = k) := by
  have hmove := step_iff_move.1 hstep
  cases hmove with
  | store howned hroom =>
    obtain ⟨b, -, hb⟩ := custody_of_run hrun
    have hnot : some o ∉ s₀.memoryPool.pool := by
      rw [hb.pooled_iff, hb.owned_iff.1 howned]
      simp
    obtain ⟨hallocated, hfront⟩ := acquisitions_getElem? hpath (i := i) (by simp; omega) hp
    refine ⟨hallocated, ?_⟩
    rcases Nat.lt_or_eq_of_le hi with hlt | rfl
    · simp only [List.getElem?_append_left hlt] at hfront
      constructor
      · rintro rfl
        exact absurd (List.mem_of_getElem? hfront) hnot
      · intro heq
        exact absurd heq (Nat.ne_of_lt hlt)
    · simp at hfront
      simp [hfront]

/-- After every run, what was handed out is a prefix of the constructor's objects followed by the
stored ones, and the pool, front to back, is the rest.  A `Release` that finds `k` objects stores
its own when `k` is less than `max_size`; the object is then returned by the `Acquire` that comes
`k` `Acquire` calls later and by none before it, and none of these creates an object. -/
theorem recycling_law {initialSize maxSize : ℕ} {tr : List (Event C T)} {s : State C T}
    (hrun : Run initialSize maxSize tr s) :
    handed tr = (constructed initialSize ++ stored tr).take (handed tr).length ∧
    s.memoryPool.pool = (constructed initialSize ++ stored tr).drop (handed tr).length ∧
    ∀ tr₀ c o k kept discarded tr₁,
      tr = tr₀ ++ (.release c (some o), .released k kept discarded) :: tr₁ →
      (kept = true ↔ k < maxSize) ∧
      (kept = true → ∀ i p allocated, i ≤ k → (acquisitions tr₁)[i]? = some (p, allocated) →
        allocated = false ∧ (p = some o ↔ i = k)) := by
  have hhistory : constructed initialSize ++ stored tr = handed tr ++ s.memoryPool.pool := by
    have h := Fifo.conservation (queue_of_path hrun)
    rwa [pushed_eq hrun, popped_eq hrun, start_eq] at h
  refine ⟨?_, ?_, ?_⟩
  · rw [hhistory, List.take_left]
  · rw [hhistory, List.drop_left]
  · rintro tr₀ c o k kept discarded tr₁ rfl
    obtain ⟨s₀, hrun₀, htail⟩ := Path.append_iff.1 hrun
    obtain ⟨s₁, hstep, hpath⟩ := Path.cons_iff.1 htail
    constructor
    · have hstores := (release_stores_iff hstep).2.1
      rwa [maxSize_of_run hrun₀] at hstores
    · rintro rfl i p allocated hi hp
      exact returned_iff hrun₀ hstep hpath hi hp

theorem recycling_law_sample :
    handed sampleTrace = (constructed 1 ++ stored sampleTrace).take (handed sampleTrace).length ∧
    sampleState.memoryPool.pool =
      (constructed 1 ++ stored sampleTrace).drop (handed sampleTrace).length ∧
    ∀ tr₀ c o k kept discarded tr₁,
      sampleTrace = tr₀ ++ (.release c (some o), .released k kept discarded) :: tr₁ →
      (kept = true ↔ k < 1) ∧
      (kept = true → ∀ i p allocated, i ≤ k → (acquisitions tr₁)[i]? = some (p, allocated) →
        allocated = false ∧ (p = some o ↔ i = k)) :=
  recycling_law run_sample

end NexusCore
