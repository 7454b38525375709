import Mathlib.Logic.Function.Basic
import NexusCore.Library.Product

/-!
# Atomic objects

The operations of a sequential object are a transition relation on its states, whose labels are
actions with their results.  `Atomic.Step` is the same object shared by threads: a thread calls an
action, the action takes effect in one step of the sequential object (`commit`), and the thread
is given the value of its result.  The commits of a path are a path of the sequential object
(`committed_path`), and every thread goes through call, commit and return in turn
(`rounds_of_path`).  So a call takes effect after it is made and before it returns, and it returns
what the effect gives (`committed_of_visible`).

A concurrent implementation is `Linearizable` when every path of it shows the calls and returns of
some path of the atomic object.  A program that uses it can then do nothing that it cannot do with
the atomic object (`Linearizable.program`).
-/

open Transition

namespace Atomic

variable {ι σ τ α ρ ν : Type*}

/-- What a thread is doing. -/
inductive Status (α ν : Type*) where
  | idle
  | called (a : α)
  | answered (v : ν)

/-- What is seen of the object from outside. -/
inductive Interface (ι α ν : Type*) where
  | call (i : ι) (a : α)
  | ret (i : ι) (v : ν)

inductive Label (ι α ρ ν : Type*) where
  | seen (e : Interface ι α ν)
  | commit (i : ι) (a : α) (r : ρ)

def Label.visible : Label ι α ρ ν → Option (Interface ι α ν)
  | .seen e => some e
  | .commit _ _ _ => none

def Label.committed : Label ι α ρ ν → Option (α × ρ)
  | .seen _ => none
  | .commit _ a r => some (a, r)

def Label.thread : Label ι α ρ ν → ι
  | .seen (.call i _) => i
  | .seen (.ret i _) => i
  | .commit i _ _ => i

/-- Calls of `i` that have returned, each with its commit in between. -/
def rounds (value : ρ → ν) (i : ι) (xs : List (α × ρ)) : List (Label ι α ρ ν) :=
  xs.flatMap fun x => [.seen (.call i x.1), .commit i x.1 x.2, .seen (.ret i (value x.2))]

theorem rounds_concat (value : ρ → ν) (i : ι) (xs : List (α × ρ)) (a : α) (r : ρ) :
    rounds value i (xs ++ [(a, r)]) =
      rounds value i xs ++ [.seen (.call i a), .commit i a r, .seen (.ret i (value r))] := by
  simp [rounds]

variable [DecidableEq ι]

/-- The object `op`, shared by threads that see the values of the results. -/
inductive Step (op : σ → α × ρ → σ → Prop) (value : ρ → ν) :
    σ × (ι → Status α ν) → Label ι α ρ ν → σ × (ι → Status α ν) → Prop
  | call {s : σ} {st : ι → Status α ν} {i : ι} (a : α) (hidle : st i = .idle) :
      Step op value (s, st) (.seen (.call i a)) (s, Function.update st i (.called a))
  | commit {s t : σ} {st : ι → Status α ν} {i : ι} {a : α} {r : ρ} (hcalled : st i = .called a)
      (hop : op s (a, r) t) :
      Step op value (s, st) (.commit i a r) (t, Function.update st i (.answered (value r)))
  | ret {s : σ} {st : ι → Status α ν} {i : ι} {v : ν} (hanswered : st i = .answered v) :
      Step op value (s, st) (.seen (.ret i v)) (s, Function.update st i .idle)

variable {op : σ → α × ρ → σ → Prop} {value : ρ → ν} {x y : σ × (ι → Status α ν)}
  {ks : List (Label ι α ρ ν)}

theorem committed_path (h : Path (Step op value) x ks y) :
    Path op x.1 (ks.filterMap Label.committed) y.1 := by
  obtain ⟨s, hpath, hs⟩ := Path.simulate op Label.committed (fun x s => x.1 = s)
    (fun hR hstep hnone => by
      cases hstep with
      | commit _ _ => cases hnone
      | _ => exact hR)
    (fun hR hstep hsome => by
      cases hstep with
      | commit _ hop =>
        cases hsome
        exact ⟨_, hR ▸ hop, rfl⟩
      | _ => cases hsome)
    h rfl
  rwa [hs]

/-- What `i` has done of the call it is in. -/
def Under (value : ρ → ν) (i : ι) : Status α ν → List (Label ι α ρ ν) → Prop
  | .idle, l => l = []
  | .called a, l => l = [.seen (.call i a)]
  | .answered v, l => ∃ a r, l = [.seen (.call i a), .commit i a r] ∧ value r = v

/-- A step of another thread changes nothing for `i`. -/
theorem Step.status_of_ne {k : Label ι α ρ ν} (h : Step op value x k y) {i : ι}
    (hi : k.thread ≠ i) : y.2 i = x.2 i := by
  cases h <;> exact Function.update_of_ne (Ne.symm hi) ..

/-- A thread that starts idle calls, takes effect and returns in turn. -/
theorem rounds_of_path (h : Path (Step op value) x ks y) {i : ι} (hidle : x.2 i = .idle) :
    ∃ xs l, ks.filter (·.thread = i) = rounds value i xs ++ l ∧ Under value i (y.2 i) l := by
  refine Path.history (I := fun ks y => ∃ xs l,
    ks.filter (·.thread = i) = rounds value i xs ++ l ∧ Under value i (y.2 i) l) ?_ ?_ h
  · refine ⟨[], [], rfl, ?_⟩
    rw [hidle]
    rfl
  · rintro ks y k z - ⟨xs, l, hks, hl⟩ hstep
    rw [List.filter_append, hks]
    by_cases hk : k.thread = i
    · subst hk
      rw [List.filter_cons_of_pos (by simp), List.filter_nil, List.append_assoc]
      cases hstep with
      | @call _ st j a hfrom =>
        refine ⟨xs, [.seen (.call j a)], ?_, ?_⟩
        · have hnil : l = [] := by simpa [Label.thread, hfrom, Under] using hl
          rw [hnil]
          rfl
        · simp [Label.thread, Under]
      | @commit _ _ st j a r hfrom _ =>
        refine ⟨xs, [.seen (.call j a), .commit j a r], ?_, ?_⟩
        · have hcall : l = [.seen (.call j a)] := by simpa [Label.thread, hfrom, Under] using hl
          rw [hcall]
          rfl
        · simp [Label.thread, Under]
      | @ret _ st j v hfrom =>
        have hround : Under value j (.answered v) l := by simpa [Label.thread, hfrom] using hl
        obtain ⟨a, r, rfl, rfl⟩ := hround
        refine ⟨xs ++ [(a, r)], [], ?_, ?_⟩
        · rw [rounds_concat, List.append_nil]
          rfl
        · simp [Label.thread, Under]
    · rw [List.filter_cons_of_neg (by simpa using hk), List.filter_nil, List.append_nil,
        hstep.status_of_ne hk]
      exact ⟨xs, l, rfl, hl⟩

/-- A value that waits to be returned is that of a commit. -/
theorem committed_of_answered (h : Path (Step op value) x ks y) {i : ι} (hidle : x.2 i = .idle)
    {v : ν} (hv : y.2 i = .answered v) :
    ∃ e ∈ ks.filterMap Label.committed, value e.2 = v := by
  obtain ⟨xs, l, hks, hl⟩ := rounds_of_path h hidle
  rw [hv] at hl
  obtain ⟨a, r, rfl, hr⟩ := hl
  have hfilter : Label.commit i a r ∈ ks.filter (·.thread = i) := by
    rw [hks]
    simp
  exact ⟨(a, r), List.mem_filterMap.2 ⟨_, (List.mem_filter.1 hfilter).1, rfl⟩, hr⟩

/-- A value returned is that of a commit. -/
theorem committed_of_ret (h : Path (Step op value) x ks y) {i : ι} (hidle : x.2 i = .idle) {v : ν}
    (hret : .seen (.ret i v) ∈ ks) : ∃ e ∈ ks.filterMap Label.committed, value e.2 = v := by
  obtain ⟨ks₁, ks₂, rfl⟩ := List.append_of_mem hret
  obtain ⟨z, hpre, htail⟩ := Path.append_iff.1 h
  obtain ⟨w, hstep, -⟩ := Path.cons_iff.1 htail
  cases hstep with
  | ret hanswered =>
    obtain ⟨e, he, hv⟩ := committed_of_answered hpre hidle hanswered
    rw [List.filterMap_append]
    exact ⟨e, List.mem_append_left _ he, hv⟩

/-- A value seen to be returned is that of a commit. -/
theorem committed_of_visible (h : Path (Step op value) x ks y) {i : ι} (hidle : x.2 i = .idle)
    {v : ν} (hret : .ret i v ∈ ks.filterMap Label.visible) :
    ∃ e ∈ ks.filterMap Label.committed, value e.2 = v := by
  obtain ⟨k, hk, hv⟩ := List.mem_filterMap.1 hret
  cases k with
  | seen e =>
    cases hv
    exact committed_of_ret h hidle hk
  | commit _ _ _ => cases hv

/-- Every path of an implementation from `t` shows what some path of the atomic object from `s`
shows. -/
def Linearizable (step : τ → Option (Interface ι α ν) → τ → Prop) (t : τ)
    (op : σ → α × ρ → σ → Prop) (value : ρ → ν) (s : σ) : Prop :=
  ∀ ls u, Path step t ls u → ∃ ks y, Path (Step op value) (s, fun _ => .idle) ks y ∧
    ks.filterMap Label.visible = ls.filterMap id

/-- A program runs beside the object, makes its calls and sees its returns.  It runs in the same way
with the atomic object in place of the implementation. -/
theorem Linearizable.program {step : τ → Option (Interface ι α ν) → τ → Prop} {t u : τ} {s : σ}
    (h : Linearizable step t op value s) {γ κ : Type*} {prog : γ → κ → γ → Prop}
    {see : κ → Option (Interface ι α ν)} {p q : γ}
    {es : List (Option (Option (Interface ι α ν)) × Option κ)}
    (hrun : Path (Sync step id prog see) (t, p) es (u, q)) :
    ∃ es' y, Path (Sync (Step op value) Label.visible prog see) ((s, fun _ => .idle), p) es' (y, q) ∧
      es'.filterMap Prod.snd = es.filterMap Prod.snd := by
  obtain ⟨hobject, hprog, hsame⟩ := Sync.paths hrun
  obtain ⟨ks, y, hks, hseen⟩ := h _ _ hobject
  obtain ⟨es', hes', -, hsnd⟩ := Sync.of_paths hks hprog (hseen.trans hsame)
  exact ⟨es', y, hes', hsnd⟩

end Atomic
