import Mathlib.Data.List.Count
import Mathlib.Data.List.Nodup
import Mathlib.Data.Option.Basic
import NexusCore.Library.Ledger
import NexusCore.Clients

/-!
# Who holds an object

The purpose of owning pointers is that every object has exactly one keeper: the pool, one of the
clients, or none any more.  A ledger of places says just that, since it can record one place for
an object only.  The states of the pool and its clients could say otherwise: an object may sit in
two slots of `pool_`, be held twice, or be destroyed twice.  `Custody` compares a state with a
ledger by counting, and it is kept by every step (`custody_step`), so that every run of the clients
is a run of the ledger (`custody_of_run`).
-/

open Transition

namespace NexusCore

variable {C T : Type*}

/-- Where an object may be. -/
inductive Place (C : Type*) where
  | pooled
  | client (c : C)
  | destroyed
  deriving DecidableEq

/-- What an event does to the ledger. -/
def entry : Event C T → Option (Ledger.Entry Obj (Place C))
  | (.acquire c, .acquired (some o) _ _ true) => some (.enter o (.client c))
  | (.acquire c, .acquired (some o) _ _ false) => some (.move o .pooled (.client c))
  | (.release c (some o), .released _ true _) => some (.move o (.client c) .pooled)
  | (.release c (some o), .released _ false true) => some (.move o (.client c) .destroyed)
  | (.create c, .created (some o)) => some (.enter o (.client c))
  | (.destroy c o, .done) => some (.move o (.client c) .destroyed)
  | _ => none

variable [DecidableEq C]

/-- How often an object is found at a place, in the slots `q`, the possession `w` of the clients and
the destroyed objects `d`. -/
def placed (q : Queue) (w : List (C × Obj)) (d : List Obj) (o : Obj) : Place C → ℕ
  | .pooled => q.count (some o)
  | .client c => w.count (c, o)
  | .destroyed => d.count o

def State.sightings (s : State C T) : Obj → Place C → ℕ :=
  placed s.memoryPool.pool s.owned s.heap.destroyed

/-- No slot of `pool_` is null, and the ledger has the place of every object created. -/
structure Custody (s : State C T) (k : Ledger.Book Obj (Place C)) : Prop where
  noNull : none ∉ s.memoryPool.pool
  agrees : Ledger.Agrees s.sightings k
  entered : ∀ o, k o = none ↔ s.heap.created ≤ o

section

variable {s : State C T} {k : Ledger.Book Obj (Place C)}

theorem Custody.pooled_iff (hk : Custody s k) {o : Obj} :
    some o ∈ s.memoryPool.pool ↔ k o = some .pooled :=
  List.count_pos_iff.symm.trans (hk.agrees.pos_iff o .pooled)

theorem Custody.owned_iff (hk : Custody s k) {c : C} {o : Obj} :
    (c, o) ∈ s.owned ↔ k o = some (.client c) :=
  List.count_pos_iff.symm.trans (hk.agrees.pos_iff o (.client c))

theorem Custody.exists_place (hk : Custody s k) {o : Obj} (ho : o < s.heap.created) :
    ∃ p, k o = some p := by
  apply Option.ne_none_iff_exists'.1
  intro hnone
  exact absurd ((hk.entered o).1 hnone) (Nat.not_le_of_lt ho)

theorem Custody.lt_created (hk : Custody s k) {o : Obj} {p : Place C} (hp : k o = some p) :
    o < s.heap.created := by
  apply Nat.lt_of_not_le
  intro hge
  rw [(hk.entered o).2 hge] at hp
  cases hp

theorem Custody.destroyed_iff (hk : Custody s k) {o : Obj} :
    o ∈ s.heap.destroyed ↔ k o = some .destroyed :=
  List.count_pos_iff.symm.trans (hk.agrees.pos_iff o .destroyed)

theorem Custody.sightings_le (hk : Custody s k) (o : Obj) (p : Place C) : s.sightings o p ≤ 1 := by
  rw [hk.agrees o p]
  split_ifs <;> omega

theorem Custody.pool_nodup (hk : Custody s k) : s.memoryPool.pool.Nodup := by
  apply List.nodup_iff_count_le_one.2
  intro p
  cases p with
  | none =>
    rw [List.count_eq_zero.2 hk.noNull]
    exact Nat.zero_le 1
  | some o => exact hk.sightings_le o .pooled

theorem Custody.destroyed_nodup (hk : Custody s k) : s.heap.destroyed.Nodup :=
  List.nodup_iff_count_le_one.2 fun o => hk.sightings_le o .destroyed

theorem Custody.owned_nodup (hk : Custody s k) : s.owned.Nodup :=
  List.nodup_iff_count_le_one.2 fun x => hk.sightings_le x.2 (.client x.1)

theorem Custody.owner_unique (hk : Custody s k) {c c' : C} {o : Obj} (howned : (c, o) ∈ s.owned)
    (howned' : (c', o) ∈ s.owned) : c = c' := by
  have heq := (hk.owned_iff.1 howned).symm.trans (hk.owned_iff.1 howned')
  cases heq
  rfl

end

/-! ## Counting -/

section

variable {α : Type*} [BEq α] [LawfulBEq α] [DecidableEq α]

theorem count_cons_one (l : List α) (a b : α) :
    (a :: l).count b = l.count b + if b = a then 1 else 0 := by
  rw [List.count_cons]
  simp only [beq_iff_eq, eq_comm (a := a)]

theorem count_one (a b : α) : [a].count b = if b = a then 1 else 0 := by
  rw [count_cons_one, List.count_nil, Nat.zero_add]

end

variable (q : Queue) (w : List (C × Obj)) (d : List Obj) (c : C) (o j : Obj) (r : Place C)

theorem placed_push : placed (q ++ [some o]) w d j r =
    placed q w d j r + Ledger.sighting o .pooled j r := by
  cases r <;> simp [placed, Ledger.sighting, count_one]

theorem placed_front : placed (some o :: q) w d j r =
    placed q w d j r + Ledger.sighting o .pooled j r := by
  cases r <;> simp [placed, Ledger.sighting, count_cons_one]

theorem placed_gain : placed q (w ++ [(c, o)]) d j r =
    placed q w d j r + Ledger.sighting o (.client c) j r := by
  cases r <;> simp [placed, Ledger.sighting, count_one, and_comm]

theorem placed_lose {w : List (C × Obj)} (howned : (c, o) ∈ w) :
    placed q (w.erase (c, o)) d j r + Ledger.sighting o (.client c) j r = placed q w d j r := by
  rw [← placed_gain]
  cases r with
  | client c' => exact ((List.perm_append_singleton _ _).trans
      (List.perm_cons_erase howned).symm).count_eq _
  | _ => rfl

theorem placed_destruct : placed q w (d ++ [o]) j r =
    placed q w d j r + Ledger.sighting o .destroyed j r := by
  cases r <;> simp [placed, Ledger.sighting, count_one]

/-! ## One step -/

section

variable {s t : State C T} {k : Ledger.Book Obj (Place C)} {o : Obj}

/-- A new object goes to the client that asked for it. -/
theorem Custody.gain_new [Inhabited T] (hk : Custody s k) (c : C) :
    ∃ k', Ledger.Step k (.enter s.heap.created (.client c)) k' ∧
      Custody ⟨s.memoryPool, s.heap.makeUnique.2, s.owned ++ [(c, s.heap.created)]⟩ k' := by
  have hnew : k s.heap.created = none := (hk.entered _).2 (Nat.le_refl _)
  refine ⟨_, .enter hnew, ⟨hk.noNull, ?_, ?_⟩⟩
  · exact hk.agrees.enter hnew fun j r => placed_gain _ _ _ c _ j r
  · intro o
    rw [Heap.created_makeUnique]
    by_cases ho : o = s.heap.created
    · rw [ho, Function.update_self]
      simp
    · rw [Function.update_of_ne ho, hk.entered]
      exact ⟨fun h => Nat.lt_of_le_of_ne h (Ne.symm ho), Nat.le_of_succ_le⟩

/-- An object changes its place. -/
theorem Custody.transfer (hk : Custody s k) {p q : Place C} (hat : 0 < s.sightings o p)
    (hnull : none ∉ t.memoryPool.pool) (hcreated : t.heap.created = s.heap.created)
    (ht : ∀ j r, t.sightings j r + Ledger.sighting o p j r =
      s.sightings j r + Ledger.sighting o q j r) :
    ∃ k', Ledger.Step k (.move o p q) k' ∧ Custody t k' := by
  have hp : k o = some p := (hk.agrees.pos_iff o p).1 hat
  refine ⟨_, .move hp, ⟨hnull, hk.agrees.move hp ht, fun j => ?_⟩⟩
  rw [hcreated, ← hk.entered]
  by_cases hj : j = o
  · rw [hj, Function.update_self, hp]
    simp
  · rw [Function.update_of_ne hj]

/-- A client that owns an object gives it up, to the pool or to its destructor. -/
theorem Custody.give_up (hk : Custody s k) {c : C} {q : Place C} (howned : (c, o) ∈ s.owned)
    (hnull : none ∉ t.memoryPool.pool) (hcreated : t.heap.created = s.heap.created)
    (ht : ∀ j r, t.sightings j r =
      placed s.memoryPool.pool (s.owned.erase (c, o)) s.heap.destroyed j r +
        Ledger.sighting o q j r) :
    ∃ k', Ledger.Step k (.move o (.client c) q) k' ∧ Custody t k' := by
  refine hk.transfer (List.count_pos_iff.2 howned) hnull hcreated fun j r => ?_
  have hlose := placed_lose s.memoryPool.pool s.heap.destroyed c o j r howned
  rw [ht, State.sightings]
  omega

end

variable [Inhabited T]

theorem custody_step {s t : State C T} {e : Event C T} {k : Ledger.Book Obj (Place C)}
    (hk : Custody s k) (h : Move s e t) :
    (entry e = none → Custody t k) ∧
      ∀ x, entry e = some x → ∃ k', Ledger.Step k x k' ∧ Custody t k' := by
  cases h with
  | @allocate c hempty =>
    refine ⟨by simp [entry], ?_⟩
    rintro x ⟨⟩
    exact hk.gain_new c
  | @recycle c p q hpool =>
    cases p with
    | none => exact absurd (hpool ▸ List.mem_cons_self) hk.noNull
    | some o =>
      refine ⟨by simp [entry], ?_⟩
      rintro x ⟨⟩
      refine hk.transfer ?_ ?_ rfl fun j r => ?_
      · simp [State.sightings, placed, hpool]
      · intro hmem
        exact hk.noNull (hpool ▸ List.mem_cons_of_mem _ hmem)
      · have hfront := placed_front q s.owned s.heap.destroyed o j r
        have hgain := placed_gain q s.owned s.heap.destroyed c o j r
        simp only [State.sightings, hpool, State.gain, Option.toList_some, List.map_cons,
          List.map_nil]
        omega
  | ignore => exact ⟨fun _ => hk, by simp [entry]⟩
  | @store c o howned hroom =>
    refine ⟨by simp [entry], ?_⟩
    rintro x ⟨⟩
    refine hk.give_up howned ?_ rfl fun j r => placed_push _ _ _ o j r
    simpa using hk.noNull
  | @discard c o howned hfull =>
    refine ⟨by simp [entry], ?_⟩
    rintro x ⟨⟩
    exact hk.give_up howned hk.noNull rfl fun j r => placed_destruct _ _ _ o j r
  | report => exact ⟨fun _ => hk, by simp [entry]⟩
  | @create c =>
    refine ⟨by simp [entry], ?_⟩
    rintro x ⟨⟩
    exact hk.gain_new c
  | @destroy c o howned =>
    refine ⟨by simp [entry], ?_⟩
    rintro x ⟨⟩
    exact hk.give_up howned hk.noNull rfl fun j r => placed_destruct _ _ _ o j r
  | @write c o v howned =>
    refine ⟨fun _ => ⟨hk.noNull, hk.agrees, ?_⟩, by simp [entry]⟩
    intro j
    rw [Heap.created_write]
    exact hk.entered j

/-! ## Whole runs -/

variable (C) in
/-- The constructor's objects are pooled. -/
def startBook (initialSize : ℕ) : Ledger.Book Obj (Place C) :=
  fun o => if o < initialSize then some .pooled else none

theorem custody_start (initialSize maxSize : ℕ) :
    Custody (start C T initialSize maxSize) (startBook C initialSize) := by
  rw [start_eq]
  refine ⟨by simp, fun o p => ?_, fun o => ?_⟩
  · have hcount : ((List.range initialSize).map some).count (some o) =
        if o < initialSize then 1 else 0 := by
      rw [List.count_map_of_injective _ _ (Option.some_injective _), List.count_range]
    by_cases ho : o < initialSize <;> cases p <;>
      simp [State.sightings, placed, startBook, hcount, ho]
  · by_cases ho : o < initialSize <;> simp [startBook, Heap.created, ho]
    exact Nat.le_of_not_lt ho

/-- Every run of the clients is a run of the ledger. -/
theorem custody_of_run {initialSize maxSize : ℕ} {tr : List (Event C T)} {s : State C T}
    (hrun : Run initialSize maxSize tr s) :
    ∃ k, Path Ledger.Step (startBook C initialSize) (tr.filterMap entry) k ∧ Custody s k :=
  Path.simulate Ledger.Step entry Custody
    (fun hk hstep hnone => (custody_step hk (step_iff_move.1 hstep)).1 hnone)
    (fun hk hstep hsome => (custody_step hk (step_iff_move.1 hstep)).2 _ hsome)
    hrun (custody_start initialSize maxSize)

/-- `Acquire` hands out an object that had no keeper, or only the pool, and makes the caller its
keeper. -/
theorem Custody.acquire {s : State C T} {k : Ledger.Book Obj (Place C)} (hk : Custody s k) (c : C) :
    ∃ o v n allocated t, Step s (.acquire c, .acquired (some o) v n allocated) t ∧
      (k o = none ∨ k o = some .pooled) ∧ (∃ k', Custody t k' ∧ k' o = some (.client c)) ∧
      (allocated = true ↔ s.memoryPool.pool = []) ∧
      t.heap.created = s.heap.created + if s.memoryPool.pool = [] then 1 else 0 := by
  cases hpool : s.memoryPool.pool with
  | nil =>
    obtain ⟨k', hstep, hk'⟩ := hk.gain_new c
    exact ⟨_, _, _, _, _, step_acquire_of_empty hpool c, Or.inl ((hk.entered _).2 (Nat.le_refl _)),
      ⟨k', hk', hstep.place_enter⟩, by simp, by simp⟩
  | cons p q =>
    cases p with
    | none => exact absurd (hpool ▸ List.mem_cons_self) hk.noNull
    | some o =>
      obtain ⟨k', hstep, hk'⟩ := (custody_step hk (.recycle (c := c) hpool)).2 _ rfl
      have hpooled : some o ∈ s.memoryPool.pool := hpool ▸ List.mem_cons_self
      exact ⟨o, _, _, _, _, step_acquire_of_cons hpool c, Or.inr (hk.pooled_iff.1 hpooled),
        ⟨k', hk', hstep.place_move⟩, by simp, by simp⟩

/-- In every reachable state no slot of `pool_` is null, and every object created is found exactly
once: in a slot, with a client, or destroyed.  Every `Acquire` returns an object that no client
owned and that was never destroyed, and afterwards its caller alone owns it; an object is created
exactly when `pool_` is empty. -/
theorem ownership_conserved {initialSize maxSize : ℕ} {tr : List (Event C T)} {s : State C T}
    (hrun : Run initialSize maxSize tr s) :
    none ∉ s.memoryPool.pool ∧
    (∀ o, o < s.heap.created →
      ∃ p : Place C, ∀ p', s.sightings o p' = if p' = p then 1 else 0) ∧
    ∀ c, ∃ o v n allocated t, Step s (.acquire c, .acquired (some o) v n allocated) t ∧
      (∀ c', (c', o) ∉ s.owned) ∧ o ∉ s.heap.destroyed ∧
      (∀ c', (c', o) ∈ t.owned ↔ c' = c) ∧ o ∉ t.heap.destroyed ∧
      (allocated = true ↔ s.memoryPool.pool = []) ∧
      t.heap.created = s.heap.created + if s.memoryPool.pool = [] then 1 else 0 := by
  obtain ⟨k, -, hk⟩ := custody_of_run hrun
  refine ⟨hk.noNull, fun o ho => ?_, fun c => ?_⟩
  · obtain ⟨p, hp⟩ := hk.exists_place ho
    exact ⟨p, hk.agrees.at_place hp⟩
  · obtain ⟨o, v, n, allocated, t, hstep, hbefore, ⟨k', hk', hafter⟩, hallocated, hcreated⟩ :=
      hk.acquire c
    refine ⟨o, v, n, allocated, t, hstep, fun c' => ?_, ?_, fun c' => ?_, ?_, hallocated, hcreated⟩
    · rw [hk.owned_iff]
      rcases hbefore with h | h <;> simp [h]
    · rw [hk.destroyed_iff]
      rcases hbefore with h | h <;> simp [h]
    · rw [hk'.owned_iff, hafter]
      simp [eq_comm]
    · rw [hk'.destroyed_iff, hafter]
      simp

theorem ownership_conserved_sample :
    none ∉ sampleState.memoryPool.pool ∧
    (∀ o, o < sampleState.heap.created →
      ∃ p : Place ℕ, ∀ p', sampleState.sightings o p' = if p' = p then 1 else 0) ∧
    ∀ c, ∃ o v n allocated t, Step sampleState (.acquire c, .acquired (some o) v n allocated) t ∧
      (∀ c', (c', o) ∉ sampleState.owned) ∧ o ∉ sampleState.heap.destroyed ∧
      (∀ c', (c', o) ∈ t.owned ↔ c' = c) ∧ o ∉ t.heap.destroyed ∧
      (allocated = true ↔ sampleState.memoryPool.pool = []) ∧
      t.heap.created =
        sampleState.heap.created + if sampleState.memoryPool.pool = [] then 1 else 0 :=
  ownership_conserved run_sample

/-- When the pool is destroyed, nothing leaks and nothing is destroyed twice: every object created
is then owned by one client, or destroyed once. -/
theorem destruct_of_run {initialSize maxSize : ℕ} {tr : List (Event C T)} {s : State C T}
    (hrun : Run initialSize maxSize tr s) (o : Obj) (ho : o < s.heap.created) :
    (∃ c, (∀ c', s.owned.count (c', o) = if c' = c then 1 else 0) ∧
      o ∉ (s.memoryPool.destruct s.heap).destroyed) ∨
    (∀ c, (c, o) ∉ s.owned) ∧ (s.memoryPool.destruct s.heap).destroyed.count o = 1 := by
  obtain ⟨k, -, hk⟩ := custody_of_run hrun
  have hcount : (s.memoryPool.destruct s.heap).destroyed.count o =
      s.sightings o .destroyed + s.sightings o .pooled := by
    rw [MemoryPool.destruct_eq, List.count_append, List.reduceOption, List.count_filterMap]
    rfl
  obtain ⟨p, hp⟩ := hk.exists_place ho
  have hplace := hk.agrees.at_place hp
  cases p with
  | client c =>
    refine Or.inl ⟨c, fun c' => ?_, ?_⟩
    · have hclient := hplace (.client c')
      simp only [Place.client.injEq] at hclient
      exact hclient
    · rw [← List.count_eq_zero, hcount, hplace, hplace]
      rfl
  | pooled | destroyed =>
    refine Or.inr ⟨fun c howned => ?_, ?_⟩
    · rw [hk.owned_iff, hp] at howned
      cases howned
    · rw [hcount, hplace, hplace]
      rfl

end NexusCore
