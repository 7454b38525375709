import NexusCore.Library.Path

/-!
# First in, first out

The specification of a queue on an arbitrary type, as a transition relation on its contents (front
first).  An attempt to take an element either pops the front or finds the queue empty (`miss`).
After every path the elements pushed, behind those the queue started with, are the elements
popped followed by the contents (`conservation`), and an element at distance `i` from the front
is what the `i`-th later attempt takes (`attempts_getElem?`), whatever is pushed in between.
-/

open Transition

namespace Fifo

variable {α : Type*}

/-- One operation on a queue, with the element it moves. -/
inductive Op (α : Type*) where
  | push (a : α)
  | pop (a : α)
  | miss

inductive Step : List α → Op α → List α → Prop
  | push (q : List α) (a : α) : Step q (.push a) (q ++ [a])
  | pop (a : α) (q : List α) : Step (a :: q) (.pop a) q
  | miss : Step [] .miss []

/-- The element pushed. -/
def Op.pushed : Op α → Option α
  | .push a => some a
  | _ => none

/-- The element popped. -/
def Op.popped : Op α → Option α
  | .pop a => some a
  | _ => none

/-- What an attempt to take an element got. -/
def Op.attempt : Op α → Option (Option α)
  | .pop a => some (some a)
  | .miss => some none
  | .push _ => none

def pushed (ops : List (Op α)) : List α := ops.filterMap Op.pushed

def popped (ops : List (Op α)) : List α := ops.filterMap Op.popped

def attempts (ops : List (Op α)) : List (Option α) := ops.filterMap Op.attempt

/-- Nothing is lost, duplicated or reordered. -/
theorem conservation {q q' : List α} {ops : List (Op α)} (h : Path Step q ops q') :
    q ++ pushed ops = popped ops ++ q' := by
  induction h with
  | nil q => simp [pushed, popped]
  | cons hstep _ ih =>
    cases hstep with
    | push q a =>
      rw [List.append_assoc] at ih
      exact ih
    | pop a q =>
      rw [List.cons_append]
      exact congrArg (a :: ·) ih
    | miss => exact ih

/-- An element with `i` elements in front of it is taken by the `i`-th attempt. -/
theorem attempts_getElem? {q q' : List α} {ops : List (Op α)} (h : Path Step q ops q') {i : ℕ}
    (hi : i < q.length) (hops : i < (attempts ops).length) : (attempts ops)[i]? = some q[i]? := by
  induction h generalizing i with
  | nil q => exact absurd hops (Nat.not_lt_zero i)
  | @cons s t u op ops hstep _ ih =>
    cases hstep with
    | push _ a =>
      have hlt : i < (s ++ [a]).length := by
        rw [List.length_append]
        omega
      rw [← List.getElem?_append_left hi]
      exact ih hlt hops
    | pop a q =>
      cases i with
      | zero => rfl
      | succ i => exact ih (Nat.lt_of_succ_lt_succ hi) (Nat.lt_of_succ_lt_succ hops)
    | miss => exact absurd hi (Nat.not_lt_zero i)

end Fifo
