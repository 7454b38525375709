import Mathlib.Algebra.BigOperators.Group.Finset.Basic
import Mathlib.Algebra.GroupWithZero.Nat
import NexusCore.Library.Path

/-!
# Potentials

`φ s n` says that `n` steps are left in `s`.  It is a *potential* when every step uses up one of
them at least, apart from those that its label brings in (`gain`).  Then a path is no longer than
what was left at its start and what its labels brought in (`Potential.length_le`), and from every
state a path whose labels bring in nothing leads to one where no such step is possible
(`Potential.exhaust`).

For a system of threads the steps left are those of all threads together (`Total`), of whom only
finitely many have any.
-/

namespace Transition

variable {σ ℓ : Type*}

def Potential (step : σ → ℓ → σ → Prop) (gain : ℓ → ℕ) (φ : σ → ℕ → Prop) : Prop :=
  ∀ {s l t n}, φ s n → step s l t → ∃ m, φ t m ∧ m + 1 ≤ n + gain l

section

variable {step : σ → ℓ → σ → Prop} {gain : ℓ → ℕ} {φ : σ → ℕ → Prop} {s t : σ} {ls : List ℓ} {n : ℕ}

theorem Potential.length_le (hφ : Potential step gain φ) (h : Path step s ls t) (hs : φ s n) :
    ∃ m, φ t m ∧ ls.length + m ≤ n + (ls.map gain).sum := by
  induction h generalizing n with
  | nil s => exact ⟨n, hs, by simp⟩
  | cons hl _ ih =>
    obtain ⟨k, hk, hspent⟩ := hφ hs hl
    obtain ⟨m, hm, hlength⟩ := ih hk
    refine ⟨m, hm, ?_⟩
    rw [List.length_cons, List.map_cons, List.sum_cons]
    omega

theorem Potential.exhaust (hφ : Potential step gain φ) (hs : φ s n) :
    ∃ ls t, Path step s ls t ∧ (∀ l ∈ ls, gain l = 0) ∧ ∀ l u, step t l u → gain l ≠ 0 := by
  induction n using Nat.strong_induction_on generalizing s with
  | _ n ih =>
    by_cases hmore : ∃ l t, step s l t ∧ gain l = 0
    · obtain ⟨l, t, hl, hgain⟩ := hmore
      obtain ⟨m, hm, hspent⟩ := hφ hs hl
      obtain ⟨ls, u, hpath, hzero, hend⟩ := ih m (by omega) hm
      exact ⟨l :: ls, u, .cons hl hpath, List.forall_mem_cons.2 ⟨hgain, hzero⟩, hend⟩
    · refine ⟨[], s, .nil s, fun _ hmem => absurd hmem List.not_mem_nil, fun l u hl hgain => ?_⟩
      exact hmore ⟨l, u, hl, hgain⟩

end

/-! ## Threads -/

variable {ι κ : Type*}

/-- The ranks of all threads together are `n`. -/
def Total (rank : κ → ℕ) (f : ι → κ) (n : ℕ) : Prop :=
  ∃ S : Finset ι, (∀ i ∉ S, rank (f i) = 0) ∧ ∑ i ∈ S, rank (f i) = n

theorem total_of_zero {rank : κ → ℕ} {f : ι → κ} (hf : ∀ i, rank (f i) = 0) : Total rank f 0 :=
  ⟨∅, fun i _ => hf i, Finset.sum_empty⟩

theorem Total.eq_zero {rank : κ → ℕ} {f : ι → κ} {n : ℕ} (h : Total rank f n)
    (hf : ∀ i, rank (f i) = 0) : n = 0 := by
  obtain ⟨S, -, rfl⟩ := h
  exact Finset.sum_eq_zero fun i _ => hf i

theorem Total.rank_le {rank : κ → ℕ} {f : ι → κ} {n : ℕ} (h : Total rank f n) (i : ι) :
    rank (f i) ≤ n := by
  classical
  obtain ⟨S, hS, rfl⟩ := h
  by_cases hi : i ∈ S
  · rw [← Finset.add_sum_erase S _ hi]
    exact Nat.le_add_right _ _
  · rw [hS i hi]
    exact Nat.zero_le _

theorem Total.update [DecidableEq ι] {rank : κ → ℕ} {f : ι → κ} {n : ℕ} (h : Total rank f n) (i : ι)
    (k : κ) : ∃ m, Total rank (Function.update f i k) m ∧ m + rank (f i) = n + rank k := by
  obtain ⟨S, hS, hsum⟩ := h
  have hmem : i ∈ insert i S := Finset.mem_insert_self i S
  have hold : ∑ j ∈ insert i S, rank (f j) = n := by
    rw [Finset.sum_insert_of_eq_zero_if_notMem (hS i), hsum]
  have hrest : ∑ j ∈ (insert i S).erase i, rank (Function.update f i k j) =
      ∑ j ∈ (insert i S).erase i, rank (f j) :=
    Finset.sum_congr rfl fun j hj => by rw [Function.update_of_ne (Finset.ne_of_mem_erase hj)]
  refine ⟨_, ⟨insert i S, fun j hj => ?_, rfl⟩, ?_⟩
  · rw [Finset.mem_insert, not_or] at hj
    rw [Function.update_of_ne hj.1]
    exact hS j hj.2
  · rw [← Finset.add_sum_erase _ _ hmem] at hold ⊢
    rw [hrest, Function.update_self]
    omega

/-! ## Partial functions -/

/-- Whether there is a value. -/
def present : Option κ → ℕ
  | some _ => 1
  | none => 0

/-- The partial function has `n` values. -/
def Defined (f : ι → Option κ) (n : ℕ) : Prop := Total present f n

section

variable {f : ι → Option κ} {n : ℕ} {i : ι} {k : κ}

theorem defined_none : Defined (fun _ : ι => (none : Option κ)) 0 := total_of_zero fun _ => rfl

theorem Defined.eq_zero (h : Defined f n) (hf : ∀ i, f i = none) : n = 0 :=
  Total.eq_zero h fun i => by rw [hf i, present]

theorem Defined.pos (h : Defined f n) (hi : f i = some k) : 0 < n := by
  have hle := Total.rank_le h i
  rwa [hi, present] at hle

variable [DecidableEq ι]

theorem Defined.insert (h : Defined f n) (hi : f i = none) (k : κ) :
    Defined (Function.update f i (some k)) (n + 1) := by
  obtain ⟨m, hm, hsum⟩ := Total.update h i (some k)
  rw [hi] at hsum
  exact hsum ▸ hm

theorem Defined.replace (h : Defined f n) (hi : f i = some k) (k' : κ) :
    Defined (Function.update f i (some k')) n := by
  obtain ⟨m, hm, hsum⟩ := Total.update h i (some k')
  rw [hi] at hsum
  exact Nat.add_right_cancel hsum ▸ hm

theorem Defined.erase (h : Defined f n) (hi : f i = some k) :
    ∃ m, Defined (Function.update f i none) m ∧ m + 1 = n := by
  obtain ⟨m, hm, hsum⟩ := Total.update h i none
  rw [hi] at hsum
  exact ⟨m, hm, hsum⟩

end

end Transition
