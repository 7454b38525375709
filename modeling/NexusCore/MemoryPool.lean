import Mathlib.Data.List.ReduceOption
import NexusCore.Heap

/-!
# `MemoryPool<T>`

The class template of `Core/MemoryPool.h`, with the heap its pointers point into passed
explicitly.  Every member function locks `mutex_` for its accesses to `pool_`, so a call is one
step here.  `pool_` is a `std::queue` of nullable pointers: moving out of `front()` leaves a null
in the first slot, and `pop()` destroys that slot with what it still points to.
-/

namespace NexusCore

/-! ## `std::queue<std::unique_ptr<T>>` -/

/-- The slots of the queue, front first. -/
abbrev Queue := List UniquePtr

namespace Queue

def push (q : Queue) (p : UniquePtr) : Queue := q ++ [p]

/-- `std::move(q.front())`.  The front of an empty queue is never asked for. -/
def moveFront : Queue → UniquePtr × Queue
  | [] => (none, [])
  | p :: q => (p.move.1, p.move.2 :: q)

/-- `q.pop()`. -/
def pop {T : Type*} (q : Queue) (h : Heap T) : Queue × Heap T :=
  match q with
  | [] => ([], h)
  | p :: q => (q, h.destruct p)

end Queue

/-! ## The class -/

structure MemoryPool where
  /-- `pool_`. -/
  pool : Queue
  /-- `max_size_`. -/
  maxSize : ℕ
  deriving DecidableEq

namespace MemoryPool

variable {T : Type*}

/-- The loop of the constructor, with `n` rounds left. -/
def fill [Inhabited T] : ℕ → Queue → Heap T → Queue × Heap T
  | 0, q, h => (q, h)
  | n + 1, q, h => fill n (q.push h.makeUnique.1) h.makeUnique.2

/-- `MemoryPool(initial_size, max_size)`. -/
def construct [Inhabited T] (h : Heap T) (initialSize : ℕ := 100) (maxSize : ℕ := 1000) :
    MemoryPool × Heap T :=
  let (pool, h) := fill initialSize [] h
  (⟨pool, maxSize⟩, h)

/-- `~MemoryPool()`: the slots are destroyed with what they point to, here from the front on;
`std::queue` promises no order. -/
def destruct (m : MemoryPool) (h : Heap T) : Heap T := m.pool.foldl Heap.destruct h

/-- `Acquire()`: the pointer returned, the pool and the heap. -/
def acquire [Inhabited T] (m : MemoryPool) (h : Heap T) : UniquePtr × MemoryPool × Heap T :=
  if m.pool.isEmpty then
    let (p, h) := h.makeUnique
    (p, m, h)
  else
    let (obj, q) := m.pool.moveFront
    let (q, h) := q.pop h
    (obj, { m with pool := q }, h)

/-- `Release(obj)`.  The parameter is destroyed on return, with the object when it was not moved
into the queue. -/
def release (m : MemoryPool) (obj : UniquePtr) (h : Heap T) : MemoryPool × Heap T :=
  if obj.isNone then (m, h.destruct obj)
  else if m.pool.length < m.maxSize then
    let (p, obj) := obj.move
    ({ m with pool := m.pool.push p }, h.destruct obj)
  else (m, h.destruct obj)

/-- `GetPoolSize()`. -/
def getPoolSize (m : MemoryPool) : ℕ := m.pool.length

/-! ## What the member functions do -/

theorem acquire_of_empty [Inhabited T] {m : MemoryPool} (hm : m.pool = []) (h : Heap T) :
    m.acquire h = (some h.created, m, h.makeUnique.2) := by
  unfold acquire
  rw [if_pos (by rw [hm]; rfl)]
  rfl

theorem acquire_of_cons [Inhabited T] {m : MemoryPool} {p : UniquePtr} {q : Queue}
    (hm : m.pool = p :: q) (h : Heap T) : m.acquire h = (p, { m with pool := q }, h) := by
  unfold acquire
  rw [if_neg (by rw [hm]; simp)]
  simp [hm, Queue.moveFront, Queue.pop, UniquePtr.move]

theorem release_none (m : MemoryPool) (h : Heap T) : m.release none h = (m, h) := by
  simp [release]

theorem release_of_lt {m : MemoryPool} (hroom : m.pool.length < m.maxSize) (o : Obj) (h : Heap T) :
    m.release (some o) h = ({ m with pool := m.pool ++ [some o] }, h) := by
  simp [release, hroom, UniquePtr.move, Queue.push]

theorem release_of_le {m : MemoryPool} (hfull : m.maxSize ≤ m.pool.length) (o : Obj) (h : Heap T) :
    m.release (some o) h = (m, h.destruct (some o)) := by
  simp [release, Nat.not_lt.2 hfull]

theorem fill_eq [Inhabited T] (n : ℕ) (q : Queue) (h : Heap T) :
    fill n q h = (q ++ (List.range' h.created n).map some,
      { h with objects := h.objects ++ List.replicate n default }) := by
  induction n generalizing q h with
  | zero => simp [fill]
  | succ n ih =>
    rw [fill, ih, Heap.created_makeUnique]
    simp [Queue.push, Heap.makeUnique, List.range'_succ, List.replicate_succ]

/-- The constructor creates `initial_size` objects and queues them in the order of creation; it
does not look at `max_size`. -/
theorem construct_eq [Inhabited T] (h : Heap T) (initialSize maxSize : ℕ) :
    construct h initialSize maxSize =
      (⟨(List.range' h.created initialSize).map some, maxSize⟩,
        { h with objects := h.objects ++ List.replicate initialSize default }) := by
  simp [construct, fill_eq]

theorem destruct_eq (m : MemoryPool) (h : Heap T) :
    m.destruct h = { h with destroyed := h.destroyed ++ m.pool.reduceOption } := by
  unfold destruct
  induction m.pool generalizing h with
  | nil => simp
  | cons p q ih =>
    rw [List.foldl_cons, ih]
    cases p <;> simp [Heap.destruct, List.reduceOption_cons_of_some, List.reduceOption_cons_of_none]

end MemoryPool

/-- `PacketBufferPool` is `MemoryPool<std::vector<char>>`; this is its `T`. -/
abbrev PacketBuffer := List UInt8

end NexusCore
