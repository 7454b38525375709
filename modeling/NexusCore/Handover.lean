import NexusCore.Recycling
import NexusCore.Footprint
import NexusCore.Contents

/-!
# Objects that change hands

A `std::unique_ptr` can be moved from one client to another, so that an object may be acquired by one
client and released by another one.  The clients of `Clients` cannot do that.  Here they can, and
it makes no difference to the pool: if the clients are not told apart, a run with handovers is a run
of a single client (`merged_run`), with the same pool and the same objects.  Each object still has
one keeper (`handover_conserved`).
-/

open Transition

namespace NexusCore

variable {C T : Type*} [DecidableEq C] [Inhabited T]

/-- What clients do that may also hand objects over: a step of their own, or `c` gives `o` to
`c'`. -/
inductive Deed (C T : Type*) where
  | step (e : Event C T)
  | handOver (c c' : C) (o : Obj)

inductive HandStep : State C T → Deed C T → State C T → Prop
  | step {s t : State C T} {e : Event C T} (hstep : Step s e t) : HandStep s (.step e) t
  | handOver {s : State C T} {c c' : C} {o : Obj} (howned : (c, o) ∈ s.owned) :
      HandStep s (.handOver c c' o)
        ⟨s.memoryPool, s.heap, s.owned.erase (c, o) ++ [(c', o)]⟩

/-! ## Keepers -/

/-- What a deed does to the ledger. -/
def Deed.entry : Deed C T → Option (Ledger.Entry Obj (Place C))
  | .step e => NexusCore.entry e
  | .handOver c c' o => some (.move o (.client c) (.client c'))

variable {initialSize maxSize : ℕ} {ds : List (Deed C T)} {s : State C T}

theorem custody_of_handovers (h : Path HandStep (start C T initialSize maxSize) ds s) :
    ∃ k, Path Ledger.Step (startBook C initialSize) (ds.filterMap Deed.entry) k ∧ Custody s k := by
  refine Path.simulate Ledger.Step Deed.entry Custody ?_ ?_ h (custody_start initialSize maxSize)
  · intro s d t k hk hstep hnone
    cases hstep with
    | step hstep => exact (custody_step hk (step_iff_move.1 hstep)).1 hnone
    | handOver => cases hnone
  · intro s d t k x hk hstep hsome
    cases hstep with
    | step hstep => exact (custody_step hk (step_iff_move.1 hstep)).2 _ hsome
    | @handOver c c' o howned =>
      cases hsome
      exact hk.give_up howned hk.noNull rfl fun j r => placed_gain _ _ _ c' o j r

/-- Every object is found exactly once, whoever it was handed to. -/
theorem handover_conserved (h : Path HandStep (start C T initialSize maxSize) ds s) :
    none ∉ s.memoryPool.pool ∧
    (∀ o, o < s.heap.created →
      ∃ p : Place C, ∀ p', s.sightings o p' = if p' = p then 1 else 0) := by
  obtain ⟨k, -, hk⟩ := custody_of_handovers h
  refine ⟨hk.noNull, fun o ho => ?_⟩
  obtain ⟨p, hp⟩ := hk.exists_place ho
  exact ⟨p, hk.agrees.at_place hp⟩

/-- Client 0 acquires an object, client 1 gets it and releases it. -/
def handedTrace : List (Deed ℕ PacketBuffer) :=
  [.step (.acquire 0, .acquired (some 0) (some []) 1 false), .handOver 0 1 0,
    .step (.release 1 (some 0), .released 0 true false)]

def handedState : State ℕ PacketBuffer := ⟨⟨[some 0], 1⟩, ⟨[[]], []⟩, []⟩

theorem path_handed : Path HandStep (start ℕ PacketBuffer 1 1) handedTrace handedState := by
  refine .cons (.step rfl) (.cons (.handOver List.mem_cons_self) (.cons (.step rfl) ?_))
  exact .nil _

theorem handover_conserved_handed :
    none ∉ handedState.memoryPool.pool ∧
    (∀ o, o < handedState.heap.created →
      ∃ p : Place ℕ, ∀ p', handedState.sightings o p' = if p' = p then 1 else 0) :=
  handover_conserved path_handed

/-! ## One client -/

/-- The action, whoever takes it. -/
def Action.merge : Action C T → Action Unit T
  | .acquire _ => .acquire ()
  | .release _ p => .release () p
  | .getPoolSize _ => .getPoolSize ()
  | .create _ => .create ()
  | .destroy _ o => .destroy () o
  | .write _ o v => .write () o v

def Deed.merge : Deed C T → Option (Event Unit T)
  | .step e => some (e.1.merge, e.2)
  | .handOver _ _ _ => none

/-- The pools and objects are the same, and the client has what the clients have. -/
structure Merges (s : State C T) (x : State Unit T) : Prop where
  memoryPool : x.memoryPool = s.memoryPool
  heap : x.heap = s.heap
  owned : x.owned.Perm (s.owned.map fun z => ((), z.2))

omit [DecidableEq C] [Inhabited T] in
theorem Merges.mem {s : State C T} {x : State Unit T} (h : Merges s x) {c : C} {o : Obj}
    (howned : (c, o) ∈ s.owned) : ((), o) ∈ x.owned :=
  h.owned.mem_iff.2 (List.mem_map_of_mem (f := fun z : C × Obj => ((), z.2)) howned)

omit [DecidableEq C] in
theorem merges_start (initialSize maxSize : ℕ) :
    Merges (start C T initialSize maxSize) (start Unit T initialSize maxSize) := by
  rw [start_eq, start_eq]
  exact ⟨rfl, rfl, List.Perm.refl []⟩

omit [DecidableEq C] in
/-- What a client receives, the one client receives. -/
theorem perm_gain {w : List (C × Obj)} {v : List (Unit × Obj)}
    (h : v.Perm (w.map fun z => ((), z.2))) (c : C) (p : UniquePtr) :
    (v ++ p.toList.map fun o => ((), o)).Perm
      ((w ++ p.toList.map fun o => (c, o)).map fun z => ((), z.2)) := by
  rw [List.map_append, List.map_map]
  exact h.append_right _

/-- What a client gives up, the one client gives up. -/
theorem perm_lose {w : List (C × Obj)} {v : List (Unit × Obj)}
    (h : v.Perm (w.map fun z => ((), z.2))) {c : C} {o : Obj} (howned : (c, o) ∈ w) :
    (v.erase ((), o)).Perm ((w.erase (c, o)).map fun z => ((), z.2)) := by
  have hperm := h.trans ((List.perm_cons_erase howned).map fun z : C × Obj => ((), z.2))
  have herase := hperm.erase ((), o)
  rwa [List.map_cons, List.erase_cons_head] at herase

theorem merges_step {s t : State C T} {e : Event C T} {x : State Unit T} (h : Merges s x)
    (hmove : Move s e t) : ∃ y, Move x (e.1.merge, e.2) y ∧ Merges t y := by
  have hmem := fun {c : C} {o : Obj} (howned : (c, o) ∈ s.owned) => h.mem howned
  obtain ⟨m, hp, v⟩ := x
  obtain ⟨rfl, rfl, hv⟩ := h
  cases hmove with
  | @allocate c hempty => exact ⟨_, .allocate hempty, rfl, rfl, perm_gain hv c (some _)⟩
  | @recycle c p q hpool => exact ⟨_, .recycle hpool, rfl, rfl, perm_gain hv c p⟩
  | ignore => exact ⟨_, .ignore, rfl, rfl, hv⟩
  | store howned hroom => exact ⟨_, .store (hmem howned) hroom, rfl, rfl, perm_lose hv howned⟩
  | discard howned hfull => exact ⟨_, .discard (hmem howned) hfull, rfl, rfl, perm_lose hv howned⟩
  | report => exact ⟨_, .report, rfl, rfl, hv⟩
  | @create c => exact ⟨_, .create, rfl, rfl, perm_gain hv c (some _)⟩
  | destroy howned => exact ⟨_, .destroy (hmem howned), rfl, rfl, perm_lose hv howned⟩
  | write howned => exact ⟨_, .write (hmem howned), rfl, rfl, hv⟩

/-- If the clients are not told apart, what they do with handovers is a run of one client: the same
calls return the same, on the same objects. -/
theorem merged_run (h : Path HandStep (start C T initialSize maxSize) ds s) :
    ∃ x, Run initialSize maxSize (ds.filterMap Deed.merge) x ∧ Merges s x := by
  refine Path.simulate Step Deed.merge Merges ?_ ?_ h (merges_start initialSize maxSize)
  · intro s d t x hx hstep hnone
    cases hstep with
    | step => cases hnone
    | @handOver c c' o howned =>
      refine ⟨hx.memoryPool, hx.heap, hx.owned.trans ?_⟩
      have herase := (List.perm_cons_erase howned).map fun z : C × Obj => ((), z.2)
      rw [List.map_append]
      exact herase.trans (List.perm_append_singleton _ _).symm
  · intro s d t x e hx hstep hsome
    cases hstep with
    | step hstep =>
      cases hsome
      obtain ⟨y, hmove, hy⟩ := merges_step hx (step_iff_move.1 hstep)
      exact ⟨y, step_iff_move.2 hmove, hy⟩
    | handOver => cases hsome

theorem merged_run_handed :
    ∃ x, Run 1 1 (handedTrace.filterMap Deed.merge) x ∧ Merges handedState x :=
  merged_run path_handed

end NexusCore
