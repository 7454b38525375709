import NexusCore.Library.Path

/-!
# Systems side by side

Two labelled systems run together: what a label shows (`see`) happens in both at once, and the rest in
one of them alone.  A path of the two together is a path of each, and they show the same
(`Sync.paths`); conversely any two paths that show the same can be run together
(`Sync.of_paths`).  So one of two systems may be replaced by another that shows as much.
-/

namespace Transition

variable {σ τ ℓ κ γ : Type*}

/-- A label of the two is a label of each, or of one of them. -/
inductive Sync (step : σ → ℓ → σ → Prop) (see : ℓ → Option γ) (step' : τ → κ → τ → Prop)
    (see' : κ → Option γ) : σ × τ → Option ℓ × Option κ → σ × τ → Prop
  | left {s t : σ} {x : τ} {l : ℓ} (hsilent : see l = none) (hstep : step s l t) :
      Sync step see step' see' (s, x) (some l, none) (t, x)
  | right {s : σ} {x y : τ} {k : κ} (hsilent : see' k = none) (hstep : step' x k y) :
      Sync step see step' see' (s, x) (none, some k) (s, y)
  | both {s t : σ} {x y : τ} {l : ℓ} {k : κ} {e : γ} (hseen : see l = some e)
      (hseen' : see' k = some e) (hstep : step s l t) (hstep' : step' x k y) :
      Sync step see step' see' (s, x) (some l, some k) (t, y)

namespace Sync

variable {step : σ → ℓ → σ → Prop} {see : ℓ → Option γ} {step' : τ → κ → τ → Prop}
  {see' : κ → Option γ} {s t : σ} {x y : τ} {ls : List ℓ} {ks : List κ}
  {es : List (Option ℓ × Option κ)}

theorem paths {z z' : σ × τ} (h : Path (Sync step see step' see') z es z') :
    Path step z.1 (es.filterMap Prod.fst) z'.1 ∧ Path step' z.2 (es.filterMap Prod.snd) z'.2 ∧
      (es.filterMap Prod.fst).filterMap see = (es.filterMap Prod.snd).filterMap see' := by
  induction h with
  | nil z => exact ⟨.nil _, .nil _, rfl⟩
  | cons hstep _ ih =>
    obtain ⟨hleft, hright, hsame⟩ := ih
    cases hstep with
    | left hsilent hl =>
      exact ⟨.cons hl hleft, hright, (List.filterMap_cons_none hsilent).trans hsame⟩
    | right hsilent hk =>
      exact ⟨hleft, .cons hk hright, hsame.trans (List.filterMap_cons_none hsilent).symm⟩
    | both hseen hseen' hl hk =>
      refine ⟨.cons hl hleft, .cons hk hright, ?_⟩
      show List.filterMap see (_ :: _) = List.filterMap see' (_ :: _)
      rw [List.filterMap_cons_some hseen, List.filterMap_cons_some hseen', hsame]

/-- One system runs while the other waits. -/
theorem wait (h : Path step' x ks y) (hsilent : ∀ k ∈ ks, see' k = none) :
    ∃ es, Path (Sync step see step' see') (s, x) es (s, y) ∧ es.filterMap Prod.fst = [] ∧
      es.filterMap Prod.snd = ks := by
  induction h with
  | nil x => exact ⟨[], .nil _, rfl, rfl⟩
  | @cons x x' y k ks hk _ ih =>
    obtain ⟨hhead, htail⟩ := List.forall_mem_cons.1 hsilent
    obtain ⟨es, hes, hfst, hsnd⟩ := ih htail
    exact ⟨(none, some k) :: es, .cons (.right hhead hk) hes, hfst, congrArg (k :: ·) hsnd⟩

/-- Paths that show the same can be run together. -/
theorem of_paths (h : Path step s ls t) (h' : Path step' x ks y)
    (hsame : ls.filterMap see = ks.filterMap see') :
    ∃ es, Path (Sync step see step' see') (s, x) es (t, y) ∧ es.filterMap Prod.fst = ls ∧
      es.filterMap Prod.snd = ks := by
  induction h generalizing x ks with
  | nil s => exact wait h' (List.filterMap_eq_nil_iff.1 hsame.symm)
  | @cons s s' t l ls hl _ ih =>
    cases hsee : see l with
    | none =>
      rw [List.filterMap_cons_none hsee] at hsame
      obtain ⟨es, hes, hfst, hsnd⟩ := ih h' hsame
      exact ⟨(some l, none) :: es, .cons (.left hsee hl) hes, congrArg (l :: ·) hfst, hsnd⟩
    | some e =>
      rw [List.filterMap_cons_some hsee] at hsame
      -- `step'` shows `e` as soon as it has made the steps that it shows nothing of
      obtain ⟨ks₁, k, ks₂, rfl, hsilent, hsee', hrest⟩ := List.filterMap_eq_cons_iff.1 hsame.symm
      obtain ⟨x₁, hpre, htail⟩ := Path.append_iff.1 h'
      obtain ⟨x₂, hk, hpost⟩ := Path.cons_iff.1 htail
      obtain ⟨es₁, hes₁, hfst₁, hsnd₁⟩ :
          ∃ es₁, Path (Sync step see step' see') (s, x) es₁ (s, x₁) ∧ _ := wait hpre hsilent
      obtain ⟨es₂, hes₂, hfst₂, hsnd₂⟩ := ih hpost hrest.symm
      refine ⟨es₁ ++ (some l, some k) :: es₂, hes₁.append (.cons (.both hsee hsee' hl hk) hes₂),
        ?_, ?_⟩
      · rw [List.filterMap_append, hfst₁, List.nil_append]
        exact congrArg (l :: ·) hfst₂
      · rw [List.filterMap_append, hsnd₁]
        exact congrArg (fun ks => ks₁ ++ k :: ks) hsnd₂

end Sync

end Transition
