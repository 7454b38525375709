import Mathlib.Algebra.Group.Nat.Defs
import NexusCore.Footprint

/-!
# Sizes in machine words

`initial_size`, `max_size`, the counter of the constructor's loop and `pool_.size()` are of type
`std::size_t`, whose arithmetic wraps around; the rest of the development counts in natural numbers.
`Words.Pool` is the class over words of `w` bits.  Whatever the parameters are, its runs are those of
the class over natural numbers (`words_exact`): the loop ends, and no size that is computed is ever too
large for a word, since no pool grows above the larger of the two parameters.
-/

open Transition

namespace NexusCore.Words

variable {C T : Type*} {w : ℕ}

/-! ## The class -/

/-- `std::size_t`. -/
abbrev SizeT (w : ℕ) := BitVec w

structure Pool (w : ℕ) where
  pool : Queue
  maxSize : SizeT w

/-- `pool_.size()`. -/
def size (w : ℕ) (q : Queue) : SizeT w := BitVec.ofNat w q.length

theorem toNat_add_one {i n : SizeT w} (h : i < n) : (i + 1#w).toNat = i.toNat + 1 := by
  have hlt : i.toNat < n.toNat := h
  have hfits := n.isLt
  rw [BitVec.toNat_add, BitVec.toNat_ofNat, Nat.add_mod_mod]
  apply Nat.mod_eq_of_lt
  omega

namespace Pool

/-- `for (size_t i = 0; i < initial_size; ++i)`, from `i` on. -/
def fill [Inhabited T] (initialSize i : SizeT w) (q : Queue) (h : Heap T) : Queue × Heap T :=
  if i < initialSize then fill initialSize (i + 1#w) (q.push h.makeUnique.1) h.makeUnique.2
  else (q, h)
termination_by initialSize.toNat - i.toNat
decreasing_by
  have hlt : i < initialSize := by assumption
  have hnat : i.toNat < initialSize.toNat := hlt
  rw [toNat_add_one hlt]
  omega

def construct [Inhabited T] (h : Heap T) (initialSize maxSize : SizeT w) : Pool w × Heap T :=
  let (pool, h) := fill initialSize 0#w [] h
  (⟨pool, maxSize⟩, h)

def acquire [Inhabited T] (m : Pool w) (h : Heap T) : UniquePtr × Pool w × Heap T :=
  if m.pool.isEmpty then
    let (p, h) := h.makeUnique
    (p, m, h)
  else
    let (obj, q) := m.pool.moveFront
    let (q, h) := q.pop h
    (obj, { m with pool := q }, h)

def release (m : Pool w) (obj : UniquePtr) (h : Heap T) : Pool w × Heap T :=
  if obj.isNone then (m, h.destruct obj)
  else if size w m.pool < m.maxSize then
    let (p, obj) := obj.move
    ({ m with pool := m.pool.push p }, h.destruct obj)
  else (m, h.destruct obj)

def getPoolSize (m : Pool w) : SizeT w := size w m.pool

/-- The same pool over natural numbers. -/
def toNat (m : Pool w) : MemoryPool := ⟨m.pool, m.maxSize.toNat⟩

@[simp] theorem toNat_pool (m : Pool w) : m.toNat.pool = m.pool := rfl

@[simp] theorem toNat_maxSize (m : Pool w) : m.toNat.maxSize = m.maxSize.toNat := rfl

end Pool

/-! ## The clients -/

structure State (w : ℕ) (C T : Type*) where
  memoryPool : Pool w
  heap : Heap T
  owned : List (C × Obj)

def State.toNat (s : State w C T) : NexusCore.State C T := ⟨s.memoryPool.toNat, s.heap, s.owned⟩

@[simp] theorem State.toNat_memoryPool (s : State w C T) :
    s.toNat.memoryPool = s.memoryPool.toNat := rfl

@[simp] theorem State.toNat_heap (s : State w C T) : s.toNat.heap = s.heap := rfl

variable [DecidableEq C] [Inhabited T]

/-- A step of the clients.  What they do outside the pool is as in `Clients`. -/
def State.step (s : State w C T) : Action C T → Option (Result T × State w C T)
  | .acquire c =>
    let (p, pool, heap) := s.memoryPool.acquire s.heap
    some (.acquired p (heap.read p) s.memoryPool.getPoolSize.toNat
      (s.heap.created < heap.created), ⟨pool, heap, s.toNat.gain c p⟩)
  | .release c p =>
    if s.toNat.Owns c p then
      let (pool, heap) := s.memoryPool.release p s.heap
      some (.released s.memoryPool.getPoolSize.toNat
          (s.memoryPool.pool.length < pool.pool.length)
          (s.heap.destroyed.length < heap.destroyed.length),
        ⟨pool, heap, s.toNat.lose c p⟩)
    else none
  | .getPoolSize _ => some (.poolSize s.memoryPool.getPoolSize.toNat, s)
  | a => (s.toNat.step a).map fun y => (y.1, ⟨s.memoryPool, y.2.heap, y.2.owned⟩)

def Step (s : State w C T) (e : Event C T) (t : State w C T) : Prop := s.step e.1 = some (e.2, t)

variable (C T) in
def start (initialSize maxSize : SizeT w) : State w C T :=
  let (pool, heap) := Pool.construct Heap.empty initialSize maxSize
  ⟨pool, heap, []⟩

/-! ## Words are large enough -/

theorem toNat_size {q : Queue} (h : q.length < 2 ^ w) : (size w q).toNat = q.length := by
  rw [size, BitVec.toNat_ofNat, Nat.mod_eq_of_lt h]

/-- With `n` rounds left, the loop ends after `n` rounds. -/
theorem fill_eq {initialSize i : SizeT w} {n : ℕ} (hn : initialSize.toNat - i.toNat = n) (q : Queue)
    (h : Heap T) : Pool.fill initialSize i q h = MemoryPool.fill n q h := by
  induction n generalizing i q h with
  | zero =>
    have hle : ¬ i < initialSize := fun hlt => by
      have hnat : i.toNat < initialSize.toNat := hlt
      omega
    rw [Pool.fill, if_neg hle]
    rfl
  | succ n ih =>
    have hlt : i < initialSize := by
      show i.toNat < initialSize.toNat
      omega
    rw [Pool.fill, if_pos hlt]
    apply ih
    rw [toNat_add_one hlt]
    omega

omit [DecidableEq C] in
theorem start_toNat (initialSize maxSize : SizeT w) :
    (start C T initialSize maxSize).toNat =
      NexusCore.start C T initialSize.toNat maxSize.toNat := by
  unfold start Pool.construct
  rw [fill_eq (by rw [BitVec.toNat_zero, Nat.sub_zero])]
  rfl

/-! ## One step -/

section

variable {m : Pool w}

omit [DecidableEq C] in
theorem acquire_toNat (m : Pool w) (h : Heap T) :
    m.toNat.acquire h = ((m.acquire h).1, (m.acquire h).2.1.toNat, (m.acquire h).2.2) := by
  unfold MemoryPool.acquire Pool.acquire
  rw [Pool.toNat_pool]
  by_cases hempty : m.pool.isEmpty = true
  · rw [if_pos hempty, if_pos hempty]
  · rw [if_neg hempty, if_neg hempty]
    rfl

omit [DecidableEq C] [Inhabited T] in
theorem release_toNat (hm : m.pool.length < 2 ^ w) (obj : UniquePtr) (h : Heap T) :
    m.toNat.release obj h = ((m.release obj h).1.toNat, (m.release obj h).2) := by
  have hroom : size w m.pool < m.maxSize ↔ m.pool.length < m.maxSize.toNat := by
    rw [← toNat_size hm]
    rfl
  unfold MemoryPool.release Pool.release
  rw [Pool.toNat_pool, Pool.toNat_maxSize]
  by_cases hnull : obj.isNone = true
  · rw [if_pos hnull, if_pos hnull]
  · rw [if_neg hnull, if_neg hnull]
    by_cases hlt : m.pool.length < m.maxSize.toNat
    · rw [if_pos hlt, if_pos (hroom.2 hlt)]
      rfl
    · rw [if_neg hlt, if_neg (mt hroom.1 hlt)]

/-- While a word is large enough for the size of the pool, a step is what it is over natural
numbers. -/
theorem step_toNat {s : State w C T} (hs : s.memoryPool.pool.length < 2 ^ w) (a : Action C T) :
    s.toNat.step a = (s.step a).map fun y => (y.1, y.2.toNat) := by
  have hsize : s.memoryPool.getPoolSize.toNat = s.memoryPool.pool.length := toNat_size hs
  cases a with
  | acquire c =>
    simp only [State.step, NexusCore.State.step, hsize, State.toNat_memoryPool, State.toNat_heap,
      acquire_toNat]
    rfl
  | release c p =>
    simp only [State.step, NexusCore.State.step, hsize, State.toNat_memoryPool, State.toNat_heap,
      release_toNat hs]
    split_ifs
    · rfl
    · rfl
  | getPoolSize c =>
    show some (Result.poolSize s.memoryPool.pool.length, s.toNat) = _
    rw [← hsize]
    rfl
  | create c => rfl
  | destroy c o =>
    simp only [State.step, NexusCore.State.step]
    split_ifs
    · rfl
    · rfl
  | write c o v =>
    simp only [State.step, NexusCore.State.step]
    split_ifs
    · rfl
    · rfl

end

/-! ## Whole runs -/

variable {tr : List (Event C T)}

/-- The sizes that a run computes are not too large. -/
theorem length_lt_of_run {initialSize maxSize : SizeT w} {s : NexusCore.State C T}
    (hrun : Run initialSize.toNat maxSize.toNat tr s) : s.memoryPool.pool.length < 2 ^ w := by
  have hsize : s.memoryPool.pool.length ≤ max initialSize.toNat maxSize.toNat := size_le_of_run hrun
  have hinitial := initialSize.isLt
  have hmax := maxSize.isLt
  omega

/-- Over words the clients have the runs that they have over natural numbers, with the same results:
neither the loop of the constructor, nor a comparison, nor a size that is returned ever wraps. -/
theorem words_exact (initialSize maxSize : SizeT w) (s : NexusCore.State C T) :
    Run initialSize.toNat maxSize.toNat tr s ↔
      ∃ x, Path Step (start C T initialSize maxSize) tr x ∧ x.toNat = s := by
  constructor
  · intro hrun
    refine Path.history (I := fun tr (s : NexusCore.State C T) =>
      ∃ x, Path Step (start C T initialSize maxSize) tr x ∧ x.toNat = s) ?_ ?_ hrun
    · exact ⟨_, .nil _, start_toNat initialSize maxSize⟩
    · rintro tr s ⟨a, r⟩ t hpre ⟨x, hpath, rfl⟩ hstep
      have heq := (step_toNat (length_lt_of_run hpre) a).symm.trans hstep
      obtain ⟨⟨r', y⟩, hy, hey⟩ := Option.map_eq_some_iff.1 heq
      cases hey
      exact ⟨y, Path.concat_iff.2 ⟨x, hpath, hy⟩, rfl⟩
  · rintro ⟨x, hpath, rfl⟩
    refine Path.history (I := fun tr (x : State w C T) =>
      Run initialSize.toNat maxSize.toNat tr x.toNat) ?_ ?_ hpath
    · show Path NexusCore.Step _ [] _
      rw [start_toNat]
      exact .nil _
    · intro tr x e y _ ih hstep
      refine Path.concat_iff.2 ⟨x.toNat, ih, ?_⟩
      have hx : x.step e.1 = some (e.2, y) := hstep
      show x.toNat.step e.1 = _
      rw [step_toNat (length_lt_of_run ih), hx]
      rfl

end NexusCore.Words
