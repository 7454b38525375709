import Mathlib.Data.List.Induction

/-!
# Labelled paths

A transition relation `step : σ → ℓ → σ → Prop` relates a state, a label and a next state, and
`Path step s ls t` says that the labels `ls`, taken in order, lead from `s` to `t`.  The rules
for whole paths are stated once, for every relation:

* `Path.history`: what holds at the start and is kept by one more step, as a property of the
  labels so far and the state reached, holds after every path;
* `Path.weak_simulate`: a relation to the states of a second system, kept by every step when the
  second system may answer with several steps that show the same from outside, carries every path
  to a path that shows the same;
* `Path.simulate`: a relation to the states of a second system, kept by the steps the second
  system sees (`view l = some k`) and by those it does not (`view l = none`), carries every path
  to a path of the second system with the viewed labels;
* `Path.determined`: where a view of the label decides the step, it decides the path.
-/

namespace Transition

variable {σ τ ℓ κ γ : Type*}

/-- The labels `ls`, in order, lead from `s` to `t`. -/
inductive Path (step : σ → ℓ → σ → Prop) : σ → List ℓ → σ → Prop
  | nil (s : σ) : Path step s [] s
  | cons {s t u : σ} {l : ℓ} {ls : List ℓ} :
      step s l t → Path step t ls u → Path step s (l :: ls) u

namespace Path

variable {step : σ → ℓ → σ → Prop} {step' : τ → κ → τ → Prop}

theorem append {s t u : σ} {ls ls' : List ℓ} (h : Path step s ls t) (h' : Path step t ls' u) :
    Path step s (ls ++ ls') u := by
  induction h with
  | nil => exact h'
  | cons hstep _ ih => exact cons hstep (ih h')

theorem cons_iff {s u : σ} {l : ℓ} {ls : List ℓ} :
    Path step s (l :: ls) u ↔ ∃ t, step s l t ∧ Path step t ls u := by
  constructor
  · intro h
    cases h with
    | cons hstep htail => exact ⟨_, hstep, htail⟩
  · rintro ⟨t, hstep, htail⟩
    exact cons hstep htail

theorem nil_iff {s t : σ} : Path step s [] t ↔ s = t := by
  constructor
  · intro h
    cases h
    rfl
  · rintro rfl
    exact nil s

theorem append_iff {s u : σ} {ls ls' : List ℓ} :
    Path step s (ls ++ ls') u ↔ ∃ t, Path step s ls t ∧ Path step t ls' u := by
  constructor
  · intro h
    induction ls generalizing s with
    | nil => exact ⟨s, nil s, h⟩
    | cons l ls ih =>
      obtain ⟨t, hstep, htail⟩ := cons_iff.1 h
      obtain ⟨v, hv, hv'⟩ := ih htail
      exact ⟨v, cons hstep hv, hv'⟩
  · rintro ⟨t, h, h'⟩
    exact h.append h'

theorem concat_iff {s u : σ} {ls : List ℓ} {l : ℓ} :
    Path step s (ls ++ [l]) u ↔ ∃ t, Path step s ls t ∧ step t l u := by
  simp only [append_iff, cons_iff, nil_iff, exists_eq_right]

theorem mono {step₂ : σ → ℓ → σ → Prop} (hle : ∀ {s l t}, step s l t → step₂ s l t) {s t : σ}
    {ls : List ℓ} (h : Path step s ls t) : Path step₂ s ls t := by
  induction h with
  | nil s => exact nil s
  | cons hstep _ ih => exact cons (hle hstep) ih

/-- Induction along a path from a fixed start: a property of the labels so far and of the state
reached.  The step case may use that the state is reached by those labels. -/
theorem history {I : List ℓ → σ → Prop} {s : σ} (hnil : I [] s)
    (hstep : ∀ {ls t l u}, Path step s ls t → I ls t → step t l u → I (ls ++ [l]) u)
    {ls : List ℓ} {t : σ} (h : Path step s ls t) : I ls t := by
  induction ls using List.reverseRecOn generalizing t with
  | nil =>
    obtain rfl := nil_iff.1 h
    exact hnil
  | append_singleton ls l ih =>
    obtain ⟨u, hpre, hlast⟩ := concat_iff.1 h
    exact hstep hpre (ih hpre) hlast

/-- What every step shows in its label holds for all the labels of a path. -/
theorem labels {P : ℓ → Prop} (hstep : ∀ {s l t}, step s l t → P l) {s t : σ} {ls : List ℓ}
    (h : Path step s ls t) : ∀ l ∈ ls, P l := by
  induction h with
  | nil => exact fun _ hmem => absurd hmem List.not_mem_nil
  | cons hl _ ih => exact List.forall_mem_cons.2 ⟨hstep hl, ih⟩

variable (step') in
/-- A step may be answered by any number of steps that show the same from outside. -/
theorem weak_simulate (see : ℓ → Option γ) (see' : κ → Option γ) (R : σ → τ → Prop)
    (hstep : ∀ {s l t x}, R s x → step s l t →
      ∃ ks y, Path step' x ks y ∧ ks.filterMap see' = (see l).toList ∧ R t y)
    {s t : σ} {x : τ} {ls : List ℓ} (h : Path step s ls t) (hR : R s x) :
    ∃ ks y, Path step' x ks y ∧ ks.filterMap see' = ls.filterMap see ∧ R t y := by
  induction h generalizing x with
  | nil s => exact ⟨[], x, nil x, rfl, hR⟩
  | @cons s t u l ls hl _ ih =>
    obtain ⟨ks, y, hy, hks, hRy⟩ := hstep hR hl
    obtain ⟨ks', z, hz, hks', hRz⟩ := ih hRy
    refine ⟨ks ++ ks', z, hy.append hz, ?_, hRz⟩
    rw [List.filterMap_append, hks, hks', List.filterMap_cons]
    cases see l <;> rfl

variable (step') in
/-- A forward simulation, seen through `view`, carries paths to paths. -/
theorem simulate (view : ℓ → Option κ) (R : σ → τ → Prop)
    (hsilent : ∀ {s l t x}, R s x → step s l t → view l = none → R t x)
    (hmatch : ∀ {s l t x k}, R s x → step s l t → view l = some k → ∃ y, step' x k y ∧ R t y)
    {s t : σ} {x : τ} {ls : List ℓ} (h : Path step s ls t) (hR : R s x) :
    ∃ y, Path step' x (ls.filterMap view) y ∧ R t y := by
  have hstep : ∀ {s l t x}, R s x → step s l t →
      ∃ ks y, Path step' x ks y ∧ ks.filterMap some = (view l).toList ∧ R t y := by
    intro s l t x hR hl
    cases hv : view l with
    | none => exact ⟨[], x, nil x, rfl, hsilent hR hl hv⟩
    | some k =>
      obtain ⟨y, hy, hRy⟩ := hmatch hR hl hv
      exact ⟨[k], y, cons hy (nil y), rfl, hRy⟩
  obtain ⟨ks, y, hpath, hks, hRy⟩ := weak_simulate step' view some R hstep h hR
  rw [List.filterMap_some] at hks
  exact ⟨y, hks ▸ hpath, hRy⟩

/-- If the state and the view of the label decide a step, the start and the viewed labels decide
the whole path. -/
theorem determined (view : ℓ → γ)
    (hstep : ∀ {s l l' t t'}, step s l t → step s l' t' → view l = view l' → l = l' ∧ t = t')
    {s t t' : σ} {ls ls' : List ℓ} (h : Path step s ls t) (h' : Path step s ls' t')
    (hview : ls.map view = ls'.map view) : ls = ls' ∧ t = t' := by
  induction h generalizing ls' with
  | nil s =>
    obtain rfl := List.map_eq_nil_iff.1 hview.symm
    exact ⟨rfl, nil_iff.1 h'⟩
  | cons hl _ ih =>
    obtain ⟨l', ls', rfl, hv, hrest⟩ := List.map_eq_cons_iff.1 hview.symm
    obtain ⟨u, hl', htail⟩ := cons_iff.1 h'
    obtain ⟨rfl, rfl⟩ := hstep hl hl' hv.symm
    obtain ⟨rfl, rfl⟩ := ih htail hrest.symm
    exact ⟨rfl, rfl⟩

end Path

end Transition
