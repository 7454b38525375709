import NexusCore.Library.Path
import NexusCore.MemoryPool

/-!
# The pool and its clients

Any number of clients share one `MemoryPool<T>`.  A client may call the member functions, create
objects of its own with `std::make_unique`, destroy an object it owns or write to it.  A call of a
member function is one atomic step, as `mutex_` makes it, so the interleavings of the clients are
the runs of one transition system.  A pointer can be passed to `Release`, and an object destroyed
or written to, only by a client that owns it.

Every step has a result, which records what the caller sees and what the step did to the pool and
the heap, read off the states before and after.  `Move` lists all a step can do (`step_iff_move`).
-/

open Transition

namespace NexusCore

variable {C T : Type*}

structure State (C T : Type*) where
  memoryPool : MemoryPool
  heap : Heap T
  /-- The non-null pointers the clients hold, each with its client. -/
  owned : List (C × Obj)
  deriving DecidableEq

inductive Action (C T : Type*) where
  /-- `pool.Acquire()`. -/
  | acquire (c : C)
  /-- `pool.Release(std::move(p))`; `p` may be null. -/
  | release (c : C) (p : UniquePtr)
  /-- `pool.GetPoolSize()`. -/
  | getPoolSize (c : C)
  /-- `std::make_unique<T>()` outside the pool. -/
  | create (c : C)
  /-- The client destroys an object it owns. -/
  | destroy (c : C) (o : Obj)
  /-- The client writes to an object it owns. -/
  | write (c : C) (o : Obj) (v : T)
  deriving DecidableEq

inductive Result (T : Type*) where
  /-- The pointer returned, the contents of its object, the size `pool_` was found to have, and
  whether an object was created. -/
  | acquired (p : UniquePtr) (contents : Option T) (found : ℕ) (allocated : Bool)
  /-- The size `pool_` was found to have, whether it grew, and whether an object was destroyed. -/
  | released (found : ℕ) (stored discarded : Bool)
  | poolSize (n : ℕ)
  | created (p : UniquePtr)
  | done
  deriving DecidableEq

/-- An action with its result. -/
abbrev Event (C T : Type*) := Action C T × Result T

namespace State

/-- The pointers of `c` lead to the object of `p`, if it has one. -/
def Owns (s : State C T) (c : C) : UniquePtr → Prop
  | none => True
  | some o => (c, o) ∈ s.owned

instance [DecidableEq C] (s : State C T) (c : C) (p : UniquePtr) : Decidable (s.Owns c p) :=
  match p with
  | none => inferInstanceAs (Decidable True)
  | some o => inferInstanceAs (Decidable ((c, o) ∈ s.owned))

/-- The pointers held once `c` has received `p`. -/
def gain (s : State C T) (c : C) (p : UniquePtr) : List (C × Obj) :=
  s.owned ++ p.toList.map fun o => (c, o)

/-- The pointers held once `c` has given up `p`. -/
def lose [DecidableEq C] (s : State C T) (c : C) : UniquePtr → List (C × Obj)
  | none => s.owned
  | some o => s.owned.erase (c, o)

variable [DecidableEq C] [Inhabited T]

def step (s : State C T) : Action C T → Option (Result T × State C T)
  | .acquire c =>
    let (p, pool, heap) := s.memoryPool.acquire s.heap
    some (.acquired p (heap.read p) s.memoryPool.getPoolSize (s.heap.created < heap.created),
      ⟨pool, heap, s.gain c p⟩)
  | .release c p =>
    if s.Owns c p then
      let (pool, heap) := s.memoryPool.release p s.heap
      some (.released s.memoryPool.getPoolSize (s.memoryPool.getPoolSize < pool.getPoolSize)
          (s.heap.destroyed.length < heap.destroyed.length),
        ⟨pool, heap, s.lose c p⟩)
    else none
  | .getPoolSize _ => some (.poolSize s.memoryPool.getPoolSize, s)
  | .create c =>
    let (p, heap) := s.heap.makeUnique
    some (.created p, ⟨s.memoryPool, heap, s.gain c p⟩)
  | .destroy c o =>
    if s.Owns c (some o) then
      some (.done, ⟨s.memoryPool, s.heap.destruct (some o), s.lose c (some o)⟩)
    else none
  | .write c o v =>
    if s.Owns c (some o) then some (.done, ⟨s.memoryPool, s.heap.write o v, s.owned⟩) else none

end State

variable [DecidableEq C] [Inhabited T]

def Step (s : State C T) (e : Event C T) (t : State C T) : Prop := s.step e.1 = some (e.2, t)

instance [DecidableEq T] (s : State C T) (e : Event C T) (t : State C T) : Decidable (Step s e t) :=
  inferInstanceAs (Decidable (s.step e.1 = some (e.2, t)))

variable (C T) in
/-- The state right after the construction of the pool. -/
def start (initialSize maxSize : ℕ) : State C T :=
  let (pool, heap) := MemoryPool.construct Heap.empty initialSize maxSize
  ⟨pool, heap, []⟩

/-- `tr` is a finite interleaving of the clients' steps from construction, and it leads to `s`. -/
def Run (initialSize maxSize : ℕ) (tr : List (Event C T)) (s : State C T) : Prop :=
  Path Step (start C T initialSize maxSize) tr s

omit [DecidableEq C] in
theorem start_eq (initialSize maxSize : ℕ) :
    start C T initialSize maxSize =
      ⟨⟨(List.range initialSize).map some, maxSize⟩,
        ⟨List.replicate initialSize default, []⟩, []⟩ := by
  unfold start
  rw [MemoryPool.construct_eq, List.range_eq_range']
  rfl

/-! ## What a step can do -/

/-- The steps of the clients, by the branch the code takes. -/
inductive Move : State C T → Event C T → State C T → Prop
  | allocate {s : State C T} {c : C} (hempty : s.memoryPool.pool = []) :
      Move s (.acquire c, .acquired (some s.heap.created) (some default) 0 true)
        ⟨s.memoryPool, s.heap.makeUnique.2, s.owned ++ [(c, s.heap.created)]⟩
  | recycle {s : State C T} {c : C} {p : UniquePtr} {q : Queue} (hpool : s.memoryPool.pool = p :: q) :
      Move s (.acquire c, .acquired p (s.heap.read p) (q.length + 1) false)
        ⟨{ s.memoryPool with pool := q }, s.heap, s.gain c p⟩
  | ignore {s : State C T} {c : C} :
      Move s (.release c none, .released s.memoryPool.pool.length false false) s
  | store {s : State C T} {c : C} {o : Obj} (howned : (c, o) ∈ s.owned)
      (hroom : s.memoryPool.pool.length < s.memoryPool.maxSize) :
      Move s (.release c (some o), .released s.memoryPool.pool.length true false)
        ⟨{ s.memoryPool with pool := s.memoryPool.pool ++ [some o] }, s.heap,
          s.owned.erase (c, o)⟩
  | discard {s : State C T} {c : C} {o : Obj} (howned : (c, o) ∈ s.owned)
      (hfull : s.memoryPool.maxSize ≤ s.memoryPool.pool.length) :
      Move s (.release c (some o), .released s.memoryPool.pool.length false true)
        ⟨s.memoryPool, s.heap.destruct (some o), s.owned.erase (c, o)⟩
  | report {s : State C T} {c : C} : Move s (.getPoolSize c, .poolSize s.memoryPool.pool.length) s
  | create {s : State C T} {c : C} :
      Move s (.create c, .created (some s.heap.created))
        ⟨s.memoryPool, s.heap.makeUnique.2, s.owned ++ [(c, s.heap.created)]⟩
  | destroy {s : State C T} {c : C} {o : Obj} (howned : (c, o) ∈ s.owned) :
      Move s (.destroy c o, .done)
        ⟨s.memoryPool, s.heap.destruct (some o), s.owned.erase (c, o)⟩
  | write {s : State C T} {c : C} {o : Obj} {v : T} (howned : (c, o) ∈ s.owned) :
      Move s (.write c o v, .done) ⟨s.memoryPool, s.heap.write o v, s.owned⟩

theorem step_acquire_of_empty {s : State C T} (hempty : s.memoryPool.pool = []) (c : C) :
    s.step (.acquire c) = some (.acquired (some s.heap.created) (some default) 0 true,
      ⟨s.memoryPool, s.heap.makeUnique.2, s.owned ++ [(c, s.heap.created)]⟩) := by
  simp [State.step, MemoryPool.acquire_of_empty hempty, Heap.read_makeUnique,
    MemoryPool.getPoolSize, hempty, State.gain]

theorem step_acquire_of_cons {s : State C T} {p : UniquePtr} {q : Queue}
    (hpool : s.memoryPool.pool = p :: q) (c : C) :
    s.step (.acquire c) = some (.acquired p (s.heap.read p) (q.length + 1) false,
      ⟨{ s.memoryPool with pool := q }, s.heap, s.gain c p⟩) := by
  simp [State.step, MemoryPool.acquire_of_cons hpool, MemoryPool.getPoolSize, hpool]

theorem step_release_none (s : State C T) (c : C) :
    s.step (.release c none) = some (.released s.memoryPool.pool.length false false, s) := by
  simp [State.step, MemoryPool.release_none, MemoryPool.getPoolSize, State.Owns, State.lose]

theorem step_release_of_lt {s : State C T} {c : C} {o : Obj} (howned : (c, o) ∈ s.owned)
    (hroom : s.memoryPool.pool.length < s.memoryPool.maxSize) :
    s.step (.release c (some o)) = some (.released s.memoryPool.pool.length true false,
      ⟨{ s.memoryPool with pool := s.memoryPool.pool ++ [some o] }, s.heap,
        s.owned.erase (c, o)⟩) := by
  have howns : s.Owns c (some o) := howned
  simp [State.step, MemoryPool.release_of_lt hroom, MemoryPool.getPoolSize, howns, State.lose]

theorem step_release_of_le {s : State C T} {c : C} {o : Obj} (howned : (c, o) ∈ s.owned)
    (hfull : s.memoryPool.maxSize ≤ s.memoryPool.pool.length) :
    s.step (.release c (some o)) = some (.released s.memoryPool.pool.length false true,
      ⟨s.memoryPool, s.heap.destruct (some o), s.owned.erase (c, o)⟩) := by
  have howns : s.Owns c (some o) := howned
  simp [State.step, MemoryPool.release_of_le hfull, MemoryPool.getPoolSize, howns, State.lose,
    Heap.destruct]

theorem step_iff_move {s t : State C T} {e : Event C T} : Step s e t ↔ Move s e t := by
  constructor
  · obtain ⟨a, r⟩ := e
    intro h
    unfold Step at h
    cases a with
    | acquire c =>
      cases hpool : s.memoryPool.pool with
      | nil =>
        rw [step_acquire_of_empty hpool] at h
        cases h
        exact .allocate hpool
      | cons p q =>
        rw [step_acquire_of_cons hpool] at h
        cases h
        exact .recycle hpool
    | release c p =>
      cases p with
      | none =>
        rw [step_release_none] at h
        cases h
        exact .ignore
      | some o =>
        by_cases howned : (c, o) ∈ s.owned
        · rcases Nat.lt_or_ge s.memoryPool.pool.length s.memoryPool.maxSize with hroom | hfull
          · rw [step_release_of_lt howned hroom] at h
            cases h
            exact .store howned hroom
          · rw [step_release_of_le howned hfull] at h
            cases h
            exact .discard howned hfull
        · have howns : ¬ s.Owns c (some o) := howned
          simp [State.step, howns] at h
    | getPoolSize c =>
      cases h
      exact .report
    | create c =>
      cases h
      exact .create
    | destroy c o =>
      simp only [State.step] at h
      split_ifs at h with howned
      cases h
      exact .destroy howned
    | write c o v =>
      simp only [State.step] at h
      split_ifs at h with howned
      cases h
      exact .write howned
  · intro h
    cases h with
    | allocate hempty => exact step_acquire_of_empty hempty _
    | recycle hpool => exact step_acquire_of_cons hpool _
    | ignore => exact step_release_none _ _
    | store howned hroom => exact step_release_of_lt howned hroom
    | discard howned hfull => exact step_release_of_le howned hfull
    | report => rfl
    | create => rfl
    | destroy howned => exact if_pos howned
    | write howned => exact if_pos howned

theorem Move.maxSize_eq {s t : State C T} {e : Event C T} (h : Move s e t) :
    t.memoryPool.maxSize = s.memoryPool.maxSize := by
  cases h <;> rfl

theorem maxSize_of_run {initialSize maxSize : ℕ} {tr : List (Event C T)} {s : State C T}
    (hrun : Run initialSize maxSize tr s) : s.memoryPool.maxSize = maxSize := by
  refine Path.history (I := fun _ (s : State C T) => s.memoryPool.maxSize = maxSize) ?_ ?_ hrun
  · rw [start_eq]
  · intro _ _ _ _ _ ih hstep
    exact (step_iff_move.1 hstep).maxSize_eq.trans ih

/-! ## Runs on concrete inputs -/

/-- Follows a trace, and fails where a step is not possible or has another result. -/
def State.replay [DecidableEq T] (s : State C T) : List (Event C T) → Option (State C T)
  | [] => some s
  | (a, r) :: tr =>
    match s.step a with
    | some (r', t) => if r' = r then t.replay tr else none
    | none => none

theorem replay_eq_some_iff [DecidableEq T] {s t : State C T} {tr : List (Event C T)} :
    s.replay tr = some t ↔ Path Step s tr t := by
  induction tr generalizing s with
  | nil => simp [State.replay, Path.nil_iff]
  | cons e tr ih =>
    obtain ⟨a, r⟩ := e
    have hhead : ∀ u, Step s (a, r) u ↔ s.step a = some (r, u) := fun _ => Iff.rfl
    simp only [Path.cons_iff, hhead, State.replay]
    cases s.step a with
    | none => simp
    | some x =>
      obtain ⟨r', u⟩ := x
      by_cases hr : r' = r <;> simp [hr, ih]

instance [DecidableEq T] (initialSize maxSize : ℕ) (tr : List (Event C T)) (s : State C T) :
    Decidable (Run initialSize maxSize tr s) :=
  decidable_of_iff ((start C T initialSize maxSize).replay tr = some s) replay_eq_some_iff

/-- Two clients share a pool for one object: the second one finds it empty, and the object created
for it is discarded when it comes back. -/
def sampleTrace : List (Event ℕ PacketBuffer) :=
  [(.acquire 0, .acquired (some 0) (some []) 1 false),
    (.acquire 1, .acquired (some 1) (some []) 0 true),
    (.write 1 1 [42], .done),
    (.release 0 (some 0), .released 0 true false),
    (.release 1 (some 1), .released 1 false true),
    (.acquire 1, .acquired (some 0) (some []) 1 false)]

def sampleState : State ℕ PacketBuffer := ⟨⟨[], 1⟩, ⟨[[], [42]], [1]⟩, [(1, 0)]⟩

theorem run_sample : Run 1 1 sampleTrace sampleState := by decide

end NexusCore
