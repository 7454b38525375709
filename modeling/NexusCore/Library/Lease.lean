import Mathlib.Logic.Function.Basic
import NexusCore.Library.Path

/-!
# Leases

An allocator without any reuse, as its clients would like to see it.  A lease is granted to one
tenant, with some contents; the tenant may edit them, and surrender the lease.  No lease is granted
twice: it is named by the number of leases granted before it.

What a tenant relies on holds after every path: its lease contains what the tenant wrote last, or
what it was granted with, and nobody else has ever edited it (`contents_of_path`).
-/

open Transition

namespace Lease

variable {κ β : Type*}

structure Register (κ β : Type*) where
  /-- The number of leases granted so far. -/
  granted : ℕ
  /-- The leases in force, each with its tenant and its contents. -/
  lease : ℕ → Option (κ × β)

inductive Event (κ β : Type*) where
  | grant (c : κ) (i : ℕ) (v : β)
  | edit (c : κ) (i : ℕ) (v : β)
  | surrender (c : κ) (i : ℕ)

def empty : Register κ β := ⟨0, fun _ => none⟩

inductive Step : Register κ β → Event κ β → Register κ β → Prop
  | grant (x : Register κ β) (c : κ) (v : β) :
      Step x (.grant c x.granted v)
        ⟨x.granted + 1, Function.update x.lease x.granted (some (c, v))⟩
  | edit {x : Register κ β} {c : κ} {i : ℕ} {w : β} (v : β) (hat : x.lease i = some (c, w)) :
      Step x (.edit c i v) ⟨x.granted, Function.update x.lease i (some (c, v))⟩
  | surrender {x : Register κ β} {c : κ} {i : ℕ} {w : β} (hat : x.lease i = some (c, w)) :
      Step x (.surrender c i) ⟨x.granted, Function.update x.lease i none⟩

/-- Who edits the lease `i` in the event, and the contents written. -/
def Event.edited (i : ℕ) : Event κ β → Option (κ × β)
  | .edit c j v => if j = i then some (c, v) else none
  | _ => none

/-- All that was written to the lease `i`, in order. -/
def edits (i : ℕ) (es : List (Event κ β)) : List (κ × β) := es.filterMap (Event.edited i)

variable {x : Register κ β} {es : List (Event κ β)}

theorem edits_concat (i : ℕ) (es : List (Event κ β)) (e : Event κ β) :
    edits i (es ++ [e]) = edits i es ++ (e.edited i).toList := by
  unfold edits
  rw [List.filterMap_append]
  cases h : e.edited i <;> simp [h]

/-- A lease that has not been granted is not in force and was never edited. -/
theorem lease_eq_none (h : Path Step empty es x) {i : ℕ} (hi : x.granted ≤ i) :
    x.lease i = none ∧ edits i es = [] := by
  revert i
  refine Path.history (I := fun es (x : Register κ β) => ∀ {i}, x.granted ≤ i →
    x.lease i = none ∧ edits i es = []) ?_ ?_ h
  · exact fun _ => ⟨rfl, rfl⟩
  · intro es x e y _ ih hstep i hi
    rw [edits_concat]
    cases hstep with
    | grant c v =>
      obtain ⟨hnone, hnil⟩ := ih (Nat.le_of_succ_le hi)
      rw [hnil]
      exact ⟨(Function.update_of_ne (Nat.ne_of_gt hi) ..).trans hnone, rfl⟩
    | @edit c j w v hat =>
      obtain ⟨hnone, hnil⟩ := ih hi
      have hne : i ≠ j := by
        rintro rfl
        rw [hnone] at hat
        cases hat
      rw [hnil, Event.edited, if_neg hne.symm]
      exact ⟨(Function.update_of_ne hne ..).trans hnone, rfl⟩
    | @surrender c j w hat =>
      obtain ⟨hnone, hnil⟩ := ih hi
      have hne : i ≠ j := by
        rintro rfl
        rw [hnone] at hat
        cases hat
      rw [hnil]
      exact ⟨(Function.update_of_ne hne ..).trans hnone, rfl⟩

/-- A lease in force contains what was written to it last, all of it by its tenant, or what the
tenant was granted it with. -/
theorem contents_of_path (h : Path Step empty es x) {i : ℕ} {c : κ} {v : β}
    (hi : x.lease i = some (c, v)) :
    ∃ v₀, .grant c i v₀ ∈ es ∧ v = ((edits i es).map Prod.snd).getLastD v₀ ∧
      ∀ z ∈ edits i es, z.1 = c := by
  revert c v
  refine Path.history (I := fun es (x : Register κ β) => ∀ {c v}, x.lease i = some (c, v) →
    ∃ v₀, .grant c i v₀ ∈ es ∧ v = ((edits i es).map Prod.snd).getLastD v₀ ∧
      ∀ z ∈ edits i es, z.1 = c) ?_ ?_ h
  · exact nofun
  · intro es x e y hpre ih hstep c v hi
    have hold : x.lease i = some (c, v) → e.edited i = none → ∃ v₀, .grant c i v₀ ∈ es ++ [e] ∧
        v = ((edits i (es ++ [e])).map Prod.snd).getLastD v₀ ∧
          ∀ z ∈ edits i (es ++ [e]), z.1 = c := by
      intro hi he
      obtain ⟨v₀, hmem, hrest⟩ := ih hi
      rw [edits_concat, he, Option.toList_none, List.append_nil]
      exact ⟨v₀, List.mem_append_left _ hmem, hrest⟩
    cases hstep with
    | grant c' v' =>
      simp only [Function.update_apply] at hi
      split_ifs at hi with hat
      · cases hi
        obtain ⟨-, hnil⟩ := lease_eq_none hpre (Nat.le_of_eq hat.symm)
        rw [edits_concat, hnil, hat]
        exact ⟨v, by simp, rfl, nofun⟩
      · exact hold hi rfl
    | @edit c' j w v' hat =>
      simp only [Function.update_apply] at hi
      split_ifs at hi with hj
      · cases hi
        subst hj
        obtain ⟨v₀, hmem, -, htenant⟩ := ih hat
        rw [edits_concat, Event.edited, if_pos rfl]
        exact ⟨v₀, List.mem_append_left _ hmem, by simp,
          List.forall_mem_append.2 ⟨htenant, by simp⟩⟩
      · exact hold hi (if_neg (Ne.symm hj))
    | @surrender c' j w hat =>
      simp only [Function.update_apply] at hi
      split_ifs at hi with hj
      exact hold hi rfl

end Lease
