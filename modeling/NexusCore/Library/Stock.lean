import Mathlib.Data.List.Infix
import NexusCore.Library.Path

/-!
# Bounded stocks

A stock holds a number of interchangeable units.  A *take* is served from the stock, or by making
a new unit when the stock is empty; a *put* is kept, or spilled when the stock has reached its
capacity.  The file bounds the level (`level_le`, `level_le_takes`), compares two stocks under the
same demands (`monotone`), shows that no other way to serve them makes fewer units (`optimal`) and
accounts for the units made and spilled when no more is put than was taken (`accounting`), in terms
of the largest number of units that were out at one time (`peak`).
-/

open Transition

namespace Stock

/-! ## Peaks -/

/-- The largest value of `f` on the prefixes of a list. -/
def peak {β : Type*} (f : List β → ℕ) (l : List β) : ℕ := (l.inits.map f).foldr max 0

variable {β γ : Type*} (f : List β → ℕ)

theorem peak_nil : peak f [] = f [] := by
  simp [peak]

theorem foldr_max_append (l l' : List ℕ) :
    (l ++ l').foldr max 0 = max (l.foldr max 0) (l'.foldr max 0) := by
  induction l with
  | nil => simp
  | cons a l ih => simp [ih, max_assoc]

theorem peak_concat (l : List β) (b : β) : peak f (l ++ [b]) = max (peak f l) (f (l ++ [b])) := by
  unfold peak
  rw [List.inits_append, List.map_append, foldr_max_append]
  simp

theorem le_peak (l : List β) : f l ≤ peak f l := by
  induction l using List.reverseRecOn with
  | nil => exact (peak_nil f).ge
  | append_singleton l b _ =>
    rw [peak_concat]
    exact le_max_right _ _

/-- Labels that a view drops do not move a peak. -/
theorem peak_filterMap (view : γ → Option β) (l : List γ) :
    peak (fun l => f (l.filterMap view)) l = peak f (l.filterMap view) := by
  induction l using List.reverseRecOn with
  | nil => simp only [peak_nil, List.filterMap_nil]
  | append_singleton l c ih =>
    rw [peak_concat, ih, List.filterMap_append]
    cases hv : view c with
    | none =>
      rw [List.filterMap_cons_none hv, List.filterMap_nil, List.append_nil]
      exact max_eq_left (le_peak f _)
    | some b =>
      rw [List.filterMap_cons_some hv, List.filterMap_nil, peak_concat]

/-! ## The transition relation -/

inductive Demand where
  | take
  | put
  deriving DecidableEq

/-- What the stock does with a demand. -/
inductive Outcome where
  | serve
  | make
  | keep
  | spill
  deriving DecidableEq

/-- The demand an outcome answers. -/
def Outcome.demand : Outcome → Demand
  | .serve => .take
  | .make => .take
  | .keep => .put
  | .spill => .put

inductive Step (cap : ℕ) : ℕ → Outcome → ℕ → Prop
  | serve (n : ℕ) : Step cap (n + 1) .serve n
  | make : Step cap 0 .make 0
  | keep {n : ℕ} (hroom : n < cap) : Step cap n .keep (n + 1)
  | spill {n : ℕ} (hfull : cap ≤ n) : Step cap n .spill n

variable {cap cap' n n' m m' : ℕ} {os os' : List Outcome}

/-- A level above the capacity is not raised, and one below it is raised to it at most. -/
theorem level_le (h : Path (Step cap) n os m) : m ≤ max n cap := by
  refine Path.history (I := fun _ m => m ≤ max n cap) (le_max_left _ _) ?_ h
  intro os m o m' _ ih hstep
  cases hstep <;> omega

/-- On one demand, the fuller and larger of two stocks stays at least as full, and it makes a new
unit only where the other one does. -/
theorem step_monotone (hn : n ≤ n') (hcap : cap ≤ cap') {o o' : Outcome} (h : Step cap n o m)
    (h' : Step cap' n' o' m') (ho : o.demand = o'.demand) : m ≤ m' ∧ (o' = .make → o = .make) := by
  cases h <;> cases h' <;> simp only [Outcome.demand, reduceCtorEq] at ho <;>
    exact ⟨by omega, by simp; try omega⟩

/-- Under the same demands a fuller and larger stock stays at least as full and makes no more new
units. -/
theorem monotone (hn : n ≤ n') (hcap : cap ≤ cap') (h : Path (Step cap) n os m)
    (h' : Path (Step cap') n' os' m') (hos : os.map Outcome.demand = os'.map Outcome.demand) :
    m ≤ m' ∧ os'.count .make ≤ os.count .make := by
  induction h generalizing n' os' with
  | nil n =>
    obtain rfl := List.map_eq_nil_iff.1 hos.symm
    obtain rfl := Path.nil_iff.1 h'
    exact ⟨hn, le_rfl⟩
  | cons hstep _ ih =>
    obtain ⟨o', os', rfl, ho, hrest⟩ := List.map_eq_cons_iff.1 hos.symm
    obtain ⟨k', hstep', htail'⟩ := Path.cons_iff.1 h'
    obtain ⟨hk, hmake⟩ := step_monotone hn hcap hstep hstep' ho.symm
    obtain ⟨hm, hcount⟩ := ih hk htail' hrest.symm
    refine ⟨hm, ?_⟩
    simp only [List.count_cons, beq_iff_eq]
    split_ifs with h₁ h₂
    · omega
    · exact absurd (hmake h₁) h₂
    · omega
    · omega

/-! ## Other policies -/

/-- What another stock does: it answers a demand, or, of its own accord, throws a unit away or makes
one in advance. -/
inductive Choice where
  | answer (o : Outcome)
  | drop
  | prefetch
  deriving DecidableEq

def Choice.outcome : Choice → Option Outcome
  | .answer o => some o
  | .drop | .prefetch => none

/-- The units made, on demand or in advance. -/
def made (cs : List Choice) : ℕ := cs.count (.answer .make) + cs.count .prefetch

/-- A stock that keeps no more than the capacity, and is free in everything else. -/
inductive Policy (cap : ℕ) : ℕ → Choice → ℕ → Prop
  | serve (n : ℕ) : Policy cap (n + 1) (.answer .serve) n
  | make (n : ℕ) : Policy cap n (.answer .make) n
  | keep {n : ℕ} (hroom : n < cap) : Policy cap n (.answer .keep) (n + 1)
  | spill (n : ℕ) : Policy cap n (.answer .spill) n
  | drop (n : ℕ) : Policy cap (n + 1) .drop n
  | prefetch {n : ℕ} (hroom : n < cap) : Policy cap n .prefetch (n + 1)

/-- One unit of a head start is spent, or gained, where the two stocks do not do the same. -/
theorem step_optimal {d : ℕ} (hn : n' ≤ n + d) {o o' : Outcome} (h : Step cap n o m)
    (h' : Policy cap n' (.answer o') m') (ho : o.demand = o'.demand) :
    ∃ d', m' ≤ m + d' ∧ [o].count .make + d' ≤ [o'].count .make + d := by
  cases h <;> cases h' <;> simp only [Outcome.demand, reduceCtorEq] at ho
  case serve.serve | make.make | keep.keep | keep.spill | spill.keep | spill.spill =>
    exact ⟨d, by omega, le_rfl⟩
  case serve.make => exact ⟨d + 1, by omega, by simp [Nat.add_comm]⟩
  case make.serve => exact ⟨d - 1, by omega, by simp; omega⟩

/-- Under the same demands no policy makes fewer new units, but for the `d` units that it may have
had in stock beyond this one at the start. -/
theorem optimal {d : ℕ} {cs : List Choice} (hn : n' ≤ n + d) (h : Path (Step cap) n os m)
    (h' : Path (Policy cap) n' cs m')
    (hos : os.map Outcome.demand = (cs.filterMap Choice.outcome).map Outcome.demand) :
    os.count .make ≤ made cs + d := by
  -- on what the other stock does; `d` is what it is ahead by
  induction h' generalizing n os d with
  | nil n' =>
    obtain rfl := List.map_eq_nil_iff.1 hos
    exact Nat.zero_le _
  | @cons n' k' m' c cs hstep' _ ih =>
    have hmade : made (c :: cs) = made cs + made [c] := by
      simp only [made, List.count_cons, List.count_nil]
      omega
    cases c with
    | drop =>
      cases hstep'
      have htail := ih (d := d) (by omega) h hos
      omega
    | prefetch =>
      cases hstep'
      have htail := ih (d := d + 1) (by omega) h hos
      have hone : made [.prefetch] = 1 := rfl
      omega
    | answer o' =>
      obtain ⟨o, os, rfl, ho, hrest⟩ := List.map_eq_cons_iff.1 hos
      obtain ⟨k, hstep, htail⟩ := Path.cons_iff.1 h
      obtain ⟨d', hk, hspent⟩ := step_optimal hn hstep hstep' ho
      have hcount := ih hk htail hrest
      have hone : made [.answer o'] = [o'].count .make := by cases o' <;> rfl
      rw [List.count_cons, ← List.count_singleton]
      omega

/-! ## Accounting -/

/-- The units taken. -/
def takes (os : List Outcome) : ℕ := os.countP fun o => o.demand = .take

/-- The units put back. -/
def puts (os : List Outcome) : ℕ := os.countP fun o => o.demand = .put

/-- The units that are out: taken and not put back. -/
def out (os : List Outcome) : ℕ := takes os - puts os

/-- Never has more been put back than was taken. -/
def Covered (os : List Outcome) : Prop := ∀ pre, pre <+: os → puts pre ≤ takes pre

/-- What a path of a stock from level `n` to level `m` with the outcomes `os` amounts to. -/
structure Account (cap n : ℕ) (os : List Outcome) (m : ℕ) : Prop where
  balance : m + out os + os.count .spill = n + os.count .make
  floor : min n cap ≤ m + out os
  ceiling : m + out os ≤ max n (peak out os)
  exact : peak out os ≤ cap →
    os.count .make = peak out os - n ∧ os.count .spill ≤ n - cap

theorem takes_concat (os : List Outcome) (o : Outcome) :
    takes (os ++ [o]) = takes os + if o.demand = .take then 1 else 0 := by
  simp [takes, List.countP_append, List.countP_singleton]

/-- What a stock holds beyond its capacity is taken off by the takes, and never comes back. -/
theorem level_le_takes (h : Path (Step cap) n os m) : m ≤ max cap (n - takes os) := by
  refine Path.history (I := fun os m => m ≤ max cap (n - takes os)) (le_max_right _ _) ?_ h
  intro os m o m' _ ih hstep
  rw [takes_concat]
  cases hstep <;> simp only [Outcome.demand, if_true, reduceCtorEq, if_false] <;> omega

theorem puts_concat (os : List Outcome) (o : Outcome) :
    puts (os ++ [o]) = puts os + if o.demand = .put then 1 else 0 := by
  simp [puts, List.countP_append, List.countP_singleton]

theorem out_concat_take {o : Outcome} (hcov : puts os ≤ takes os) (ho : o.demand = .take) :
    out (os ++ [o]) = out os + 1 := by
  unfold out
  rw [takes_concat, puts_concat, if_pos ho, if_neg (by simp [ho])]
  omega

theorem out_concat_put {o : Outcome} (hcov : puts (os ++ [o]) ≤ takes (os ++ [o]))
    (ho : o.demand = .put) : out (os ++ [o]) + 1 = out os := by
  unfold out
  rw [takes_concat, puts_concat, if_pos ho, if_neg (by simp [ho])] at hcov ⊢
  omega

theorem Account.step {o : Outcome} (hacc : Account cap n os m) (hcov : puts os ≤ takes os)
    (hcov' : puts (os ++ [o]) ≤ takes (os ++ [o])) (hstep : Step cap m o m') :
    Account cap n (os ++ [o]) m' := by
  obtain ⟨hbalance, hfloor, hceiling, hexact⟩ := hacc
  have hle := le_peak out os
  have hpeak := peak_concat out os o
  have hcount : ∀ o', (os ++ [o]).count o' = os.count o' + if o = o' then 1 else 0 := by
    intro o'
    simp [List.count_append, List.count_singleton]
  have hmake := hcount .make
  have hspill := hcount .spill
  cases hstep with
  | serve =>
    have hout := out_concat_take hcov (o := .serve) rfl
    simp only [reduceCtorEq, if_false] at hmake hspill
    refine ⟨by omega, by omega, by omega, fun hcap => ?_⟩
    obtain ⟨h₁, h₂⟩ := hexact (by omega)
    omega
  | make =>
    have hout := out_concat_take hcov (o := .make) rfl
    simp only [reduceCtorEq, if_false, if_true] at hmake hspill
    refine ⟨by omega, by omega, by omega, fun hcap => ?_⟩
    obtain ⟨h₁, h₂⟩ := hexact (by omega)
    omega
  | keep hroom =>
    have hout := out_concat_put (o := .keep) hcov' rfl
    simp only [reduceCtorEq, if_false] at hmake hspill
    refine ⟨by omega, by omega, by omega, fun hcap => ?_⟩
    obtain ⟨h₁, h₂⟩ := hexact (by omega)
    omega
  | spill hfull =>
    have hout := out_concat_put (o := .spill) hcov' rfl
    simp only [reduceCtorEq, if_false, if_true] at hmake hspill
    refine ⟨by omega, by omega, by omega, fun hcap => ?_⟩
    obtain ⟨h₁, h₂⟩ := hexact (by omega)
    omega

/-- The units on hand and out stay between `min n cap` and the larger of `n` and the peak; while
the peak does not pass the capacity, the units made are those the start could not cover and the
units spilled are those the start had in excess. -/
theorem accounting (hcov : Covered os) (h : Path (Step cap) n os m) : Account cap n os m := by
  refine Path.history (I := fun os m => Covered os → Account cap n os m) ?_ ?_ h hcov
  · intro _
    have hout : out [] = 0 := rfl
    refine ⟨by simp [hout], by omega, by omega, fun _ => ⟨?_, by simp⟩⟩
    rw [peak_nil, hout, Nat.zero_sub, List.count_nil]
  · intro os m o m' _ ih hstep hcov
    have hpre : Covered os := fun pre hpre => hcov pre (hpre.trans (List.prefix_append os [o]))
    exact (ih hpre).step (hpre os List.prefix_rfl) (hcov _ List.prefix_rfl) hstep

end Stock
