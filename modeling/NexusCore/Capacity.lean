import NexusCore.Footprint

/-!
# What the capacity does

`max_size` limits what `Release` stores, but the constructor does not look at it.  The objects that
it creates in excess leave the pool one by one, with every `Acquire`, and no `Release` puts anything
in their place: the capacity is respected once so many `Acquire` calls have been made
(`capacity_recovers_iff`).  Within the capacity, storing whatever there is room for is the best that
can be done: whatever else a pool may do with the same calls, it does not allocate less
(`release_policy_optimal`).
-/

open Transition

namespace NexusCore

variable {C T : Type*} [DecidableEq C] [Inhabited T] {initialSize maxSize : ℕ}
  {tr : List (Event C T)} {s : State C T}

/-! ## Recovery -/

theorem size_le_of_acquires (hrun : Run initialSize maxSize tr s) :
    s.memoryPool.getPoolSize ≤ max maxSize (initialSize - acquires tr) := by
  rw [acquires_eq]
  exact Stock.level_le_takes (level_of_run hrun)

/-- A client takes `k` objects out of a pool that has as many. -/
theorem exists_drained (c : C) (k : ℕ) (hk : k ≤ s.memoryPool.getPoolSize) :
    ∃ tr t, Path Step s tr t ∧ acquires tr = k ∧
      t.memoryPool.getPoolSize = s.memoryPool.getPoolSize - k := by
  induction k generalizing s with
  | zero => exact ⟨[], s, .nil s, rfl, rfl⟩
  | succ k ih =>
    cases hpool : s.memoryPool.pool with
    | nil =>
      rw [MemoryPool.getPoolSize, hpool] at hk
      exact absurd hk (Nat.not_succ_le_zero k)
    | cons p q =>
      have hsize : s.memoryPool.getPoolSize = q.length + 1 := by
        rw [MemoryPool.getPoolSize, hpool, List.length_cons]
      have hstep : Step s (.acquire c, .acquired p (s.heap.read p) (q.length + 1) false)
        ⟨{ s.memoryPool with pool := q }, s.heap, s.gain c p⟩ := step_acquire_of_cons hpool c
      obtain ⟨tr, t, hpath, hacquires, hleft⟩ :=
        ih (s := ⟨{ s.memoryPool with pool := q }, s.heap, s.gain c p⟩) (by
          show k ≤ q.length
          omega)
      refine ⟨_, t, .cons hstep hpath, ?_, ?_⟩
      · rw [← hacquires]
        exact List.countP_cons_of_pos rfl
      · rw [hleft, hsize]
        show q.length - k = q.length + 1 - (k + 1)
        omega

variable (C T) in
/-- After `k` calls of `Acquire`, `GetPoolSize` stays within `max_size` in every run exactly when
the constructor created no more than `k` objects in excess. -/
theorem capacity_recovers_iff [Inhabited C] (initialSize maxSize k : ℕ) :
    (∀ (tr : List (Event C T)) (s : State C T), Run initialSize maxSize tr s → k ≤ acquires tr →
      s.memoryPool.getPoolSize ≤ maxSize) ↔ initialSize - maxSize ≤ k := by
  constructor
  · intro h
    by_contra hlt
    have hstart : (start C T initialSize maxSize).memoryPool.getPoolSize = initialSize := by
      simp [start_eq, MemoryPool.getPoolSize]
    obtain ⟨tr, t, hpath, hacquires, hsize⟩ :=
      exists_drained (s := start C T initialSize maxSize) default k (by omega)
    have hle := h tr t hpath hacquires.ge
    omega
  · intro hle tr s hrun hk
    have hsize := size_le_of_acquires hrun
    omega

/-! ## Other policies -/

/-- A pool that serves the same calls in any other way, and that started with `n` objects, saves at
most the allocations of the objects it had in advance.  It may discard objects and allocate new ones
whenever it likes, in a call and between calls, but it stores no more than `max_size` objects. -/
theorem release_policy_optimal (hrun : Run initialSize maxSize tr s) {n m : ℕ}
    {cs : List Stock.Choice} (hpolicy : Path (Stock.Policy maxSize) n cs m)
    (hcalls : (cs.filterMap Stock.Choice.outcome).map Stock.Outcome.demand =
      (calls tr).filterMap Call.demand) :
    allocations tr ≤ Stock.made cs + (n - initialSize) := by
  rw [allocations_eq]
  refine Stock.optimal (by omega) (level_of_run hrun) hpolicy ?_
  rw [demands_eq, hcalls]

/-- A pool that allocates ahead of the second `Acquire`, and discards what it has when the last object
is released. -/
def wasteful : List Stock.Choice :=
  [.answer .serve, .prefetch, .answer .serve, .answer .keep, .drop, .answer .spill, .answer .make]

theorem release_policy_optimal_wasteful :
    allocations sampleTrace ≤ Stock.made wasteful + (1 - 1) :=
  release_policy_optimal run_sample (.cons (.serve 0) (.cons (.prefetch (by decide))
    (.cons (.serve 0) (.cons (.keep (by decide)) (.cons (.drop 0) (.cons (.spill 0)
      (.cons (.make 0) (.nil 0)))))))) (by decide)

end NexusCore
