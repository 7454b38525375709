import Mathlib.Logic.Function.Basic
import NexusCore.Library.Path

/-!
# Ledgers of places

A ledger gives every item that has been entered exactly one place, and its transitions enter an
item or move it from one place to another.  A concrete system that could lose an item or hold it
twice is checked against a ledger by counting: its tally `t i p`, the number of times item `i` is
found at place `p`, *agrees* with a ledger when it is one at the recorded place and zero at
every other (`Agrees`).  Agreement is kept by a tally that changes as the ledger does
(`Agrees.enter`, `Agrees.move`).
-/

open Transition

namespace Ledger

variable {ι π : Type*}

/-- The place of every item entered so far. -/
abbrev Book (ι π : Type*) := ι → Option π

/-- A change of the ledger. -/
inductive Entry (ι π : Type*) where
  | enter (i : ι) (p : π)
  | move (i : ι) (p q : π)

section

variable [DecidableEq ι]

inductive Step : Book ι π → Entry ι π → Book ι π → Prop
  | enter {k : Book ι π} {i : ι} {p : π} (hnew : k i = none) :
      Step k (.enter i p) (Function.update k i (some p))
  | move {k : Book ι π} {i : ι} {p q : π} (hat : k i = some p) :
      Step k (.move i p q) (Function.update k i (some q))

theorem Step.place_enter {k k' : Book ι π} {i : ι} {p : π} (h : Step k (.enter i p) k') :
    k' i = some p := by
  cases h
  exact Function.update_self ..

theorem Step.place_move {k k' : Book ι π} {i : ι} {p q : π} (h : Step k (.move i p q) k') :
    k' i = some q := by
  cases h
  exact Function.update_self ..

end

section

variable [DecidableEq π]

/-- The tally finds every entered item once, at its place, and nothing else. -/
def Agrees (t : ι → π → ℕ) (k : Book ι π) : Prop :=
  ∀ i p, t i p = if k i = some p then 1 else 0

variable {t t' : ι → π → ℕ} {k : Book ι π} {i : ι} {p q : π}

theorem Agrees.at_place (h : Agrees t k) (hi : k i = some p) (q : π) :
    t i q = if q = p then 1 else 0 := by
  rw [h i q, hi]
  simp only [Option.some.injEq, eq_comm]

theorem Agrees.eq_zero_of_none (h : Agrees t k) (hi : k i = none) (p : π) : t i p = 0 := by
  rw [h i p, hi]
  simp

theorem Agrees.pos_iff (h : Agrees t k) (i : ι) (p : π) : 0 < t i p ↔ k i = some p := by
  rw [h i p]
  split_ifs with hp <;> simp [hp]

variable [DecidableEq ι]

/-- One sighting of `i` at `p`. -/
def sighting (i : ι) (p : π) : ι → π → ℕ := fun j q => if j = i ∧ q = p then 1 else 0

theorem Agrees.enter (h : Agrees t k) (hi : k i = none)
    (ht : ∀ j r, t' j r = t j r + sighting i p j r) :
    Agrees t' (Function.update k i (some p)) := by
  intro j r
  rw [ht j r, sighting]
  by_cases hj : j = i
  · subst hj
    rw [h.eq_zero_of_none hi, Function.update_self]
    simp only [true_and, Nat.zero_add, Option.some.injEq, eq_comm]
  · rw [Function.update_of_ne hj, h j r]
    simp [hj]

theorem Agrees.move (h : Agrees t k) (hi : k i = some p)
    (ht : ∀ j r, t' j r + sighting i p j r = t j r + sighting i q j r) :
    Agrees t' (Function.update k i (some q)) := by
  intro j r
  have hjr := ht j r
  rw [sighting, sighting] at hjr
  by_cases hj : j = i
  · subst hj
    rw [h.at_place hi r] at hjr
    rw [Function.update_self]
    simp only [true_and, Option.some.injEq, eq_comm] at hjr ⊢
    omega
  · rw [Function.update_of_ne hj, ← h j r]
    simp only [hj, false_and, if_false, Nat.add_zero] at hjr
    exact hjr

end

end Ledger
