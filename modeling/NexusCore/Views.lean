import NexusCore.Contents

/-!
# Clients on their own

A client sees the objects that it owns, with their contents.  Other clients take objects out of the
same pool, put them back and write to them, but none of it shows: what a client sees is decided by the
calls it has made itself and what they returned (`local_view`).  So the code of a client can be
understood without the others.
-/

open Transition

namespace NexusCore

variable {C T : Type*}

/-- Whose action it is. -/
def Action.client : Action C T → C
  | .acquire c | .release c _ | .getPoolSize c | .create c | .destroy c _ | .write c _ _ => c

/-- The objects of a client, with their contents. -/
abbrev View (T : Type*) := Obj → Option T

/-- What an event does to the view of the client whose action it is. -/
def effect [Inhabited T] (w : View T) : Event C T → View T
  | (.acquire _, .acquired (some o) v _ _) => Function.update w o v
  | (.release _ (some o), _) => Function.update w o none
  | (.create _, .created (some o)) => Function.update w o (some default)
  | (.destroy _ o, _) => Function.update w o none
  | (.write _ o v, _) => Function.update w o (some v)
  | _ => w

variable [DecidableEq C] [Inhabited T]

def State.view (s : State C T) (c : C) : View T := fun o =>
  if (c, o) ∈ s.owned then some (s.heap.contents o) else none

/-! ## One step -/

section

variable {s t : State C T} {c : C} {o : Obj}

/-- The view of `c` changes at `o` only. -/
theorem view_update {r : Option T} (hself : t.view c o = r)
    (howned : ∀ o', o' ≠ o → ((c, o') ∈ t.owned ↔ (c, o') ∈ s.owned))
    (hcontents : ∀ o', o' ≠ o → (c, o') ∈ s.owned → t.heap.contents o' = s.heap.contents o') :
    t.view c = Function.update (s.view c) o r := by
  funext o'
  by_cases ho : o' = o
  · rw [ho, Function.update_self, hself]
  · rw [Function.update_of_ne ho]
    unfold State.view
    by_cases hmem : (c, o') ∈ s.owned
    · rw [if_pos hmem, if_pos ((howned o' ho).2 hmem), hcontents o' ho hmem]
    · rw [if_neg hmem, if_neg (mt (howned o' ho).1 hmem)]

/-- The view of `c` does not change. -/
theorem view_eq (howned : ∀ o', (c, o') ∈ t.owned ↔ (c, o') ∈ s.owned)
    (hcontents : ∀ o', (c, o') ∈ s.owned → t.heap.contents o' = s.heap.contents o') :
    t.view c = s.view c := by
  funext o'
  unfold State.view
  by_cases hmem : (c, o') ∈ s.owned
  · rw [if_pos hmem, if_pos ((howned o').2 hmem), hcontents o' hmem]
  · rw [if_neg hmem, if_neg (mt (howned o').1 hmem)]

/-- `c'` receives `o`. -/
theorem view_gain {c' : C} (howned : t.owned = s.owned ++ [(c', o)])
    (hcontents : ∀ o, t.heap.contents o = s.heap.contents o) :
    t.view c =
      if c' = c then Function.update (s.view c) o (some (s.heap.contents o)) else s.view c := by
  have hmem : ∀ {o'}, (c, o') ∈ t.owned ↔ (c, o') ∈ s.owned ∨ (c = c' ∧ o' = o) := by
    intro o'
    rw [howned]
    simp
  by_cases hc : c' = c
  · rw [if_pos hc]
    refine view_update ?_ (fun o' ho => ?_) fun o' _ _ => hcontents o'
    · rw [State.view, if_pos (hmem.2 (Or.inr ⟨hc.symm, rfl⟩)), hcontents]
    · rw [hmem, or_iff_left fun h => ho h.2]
  · rw [if_neg hc]
    refine view_eq (fun o' => ?_) fun o' _ => hcontents o'
    rw [hmem, or_iff_left fun h => hc h.1.symm]

/-- `c'` gives up `o`. -/
theorem view_lose {k : Ledger.Book Obj (Place C)} (hk : Custody s k) {c' : C}
    (howned : t.owned = s.owned.erase (c', o))
    (hcontents : ∀ o, t.heap.contents o = s.heap.contents o) :
    t.view c = if c' = c then Function.update (s.view c) o none else s.view c := by
  have hmem : ∀ {o'}, (c, o') ∈ t.owned ↔ (c, o') ≠ (c', o) ∧ (c, o') ∈ s.owned := by
    intro o'
    rw [howned, hk.owned_nodup.mem_erase_iff]
  by_cases hc : c' = c
  · rw [if_pos hc]
    refine view_update ?_ (fun o' ho => ?_) fun o' _ _ => hcontents o'
    · rw [State.view, if_neg fun h => (hmem.1 h).1 (by rw [hc])]
    · rw [hmem, and_iff_right fun h => ho (congrArg Prod.snd h)]
  · rw [if_neg hc]
    refine view_eq (fun o' => ?_) fun o' _ => hcontents o'
    rw [hmem, and_iff_right fun h => hc (congrArg Prod.fst h).symm]

/-- A client sees its own events only. -/
theorem view_step {k : Ledger.Book Obj (Place C)} (hk : Custody s k) {e : Event C T}
    (hmove : Move s e t) (c : C) :
    t.view c = if e.1.client = c then effect (s.view c) e else s.view c := by
  have hnew : s.heap.contents s.heap.created = default := Heap.contents_of_le (Nat.le_refl _)
  cases hmove with
  | allocate | create =>
    rw [view_gain rfl s.heap.contents_makeUnique, hnew]
    rfl
  | @recycle c' p q hpool =>
    cases p with
    | none => exact absurd (hpool ▸ List.mem_cons_self) hk.noNull
    | some o =>
      have hpooled : some o ∈ s.memoryPool.pool := hpool ▸ List.mem_cons_self
      show State.view _ c =
        if c' = c then Function.update (s.view c) o (s.heap.read (some o)) else s.view c
      rw [Heap.read_of_lt (hk.lt_created (hk.pooled_iff.1 hpooled))]
      exact view_gain rfl fun _ => rfl
  | ignore | report => exact (ite_self _).symm
  | store | discard | destroy => exact view_lose hk rfl fun _ => rfl
  | @write c' o v howned =>
    have hlt := hk.lt_created (hk.owned_iff.1 howned)
    show State.view _ c = if c' = c then Function.update (s.view c) o (some v) else s.view c
    by_cases hc : c' = c
    · subst hc
      rw [if_pos rfl]
      refine view_update ?_ (fun _ _ => Iff.rfl) fun o' ho _ => ?_
      · rw [State.view, if_pos howned, Heap.contents_write hlt, if_pos rfl]
      · rw [Heap.contents_write hlt, if_neg ho]
    · rw [if_neg hc]
      refine view_eq (fun _ => Iff.rfl) fun o' howned' => ?_
      rw [Heap.contents_write hlt, if_neg]
      rintro rfl
      exact hc (hk.owner_unique howned howned')

end

/-! ## Whole runs -/

/-- What a client has after its own events. -/
def viewed (tr : List (Event C T)) (c : C) : View T :=
  (tr.filter fun e => e.1.client = c).foldl effect fun _ => none

/-- Whatever the other clients do and whatever the parameters of the pool are, what a client has and
what it contains is decided by the client's own calls and what they returned. -/
theorem local_view {initialSize maxSize : ℕ} {tr : List (Event C T)} {s : State C T}
    (hrun : Run initialSize maxSize tr s) (c : C) : s.view c = viewed tr c := by
  refine Path.history (I := fun tr (s : State C T) => s.view c = viewed tr c) ?_ ?_ hrun
  · rw [start_eq]
    funext o
    exact if_neg List.not_mem_nil
  · intro tr s e t hpre ih hstep
    obtain ⟨k, -, hk⟩ := custody_of_run hpre
    rw [view_step hk (step_iff_move.1 hstep), ih, viewed, viewed, List.filter_append,
      List.foldl_append]
    by_cases hc : e.1.client = c <;> simp [hc]

theorem local_view_sample : sampleState.view 1 = viewed sampleTrace 1 :=
  local_view run_sample 1

end NexusCore
