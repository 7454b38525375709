import NexusCore.Library.Lease
import NexusCore.Contents

/-!
# The pool as an allocator

A memory pool is meant to save allocations without its clients noticing.  What they would have
without it is a register of leases: every `Acquire` gives them a private object that nobody had
before.  Here the runs of the clients are runs of that register (`transparent`), once every
acquisition is given a name of its own, since the pool hands out the same object many times.
With clients that clean up, a lease is also granted with the contents of a new object, and a client
never finds anything in its objects but what it wrote into them itself (`own_contents`).
-/

open Transition

namespace NexusCore

variable {C T : Type*}

/-! ## Names for acquisitions -/

/-- The object that a client obtains in the event. -/
def obtained : Event C T → Option Obj
  | (.acquire _, .acquired p _ _ _) => p
  | (.create _, .created p) => p
  | _ => none

/-- The lease under which every object was obtained last, and the number of leases so far. -/
structure Names where
  lease : Obj → ℕ
  granted : ℕ

namespace Names

/-- The next lease is for `o`. -/
def add (ν : Names) (o : Obj) : Names := ⟨Function.update ν.lease o ν.granted, ν.granted + 1⟩

theorem add_self (ν : Names) (o : Obj) : (ν.add o).lease o = ν.granted :=
  Function.update_self ..

theorem add_of_ne (ν : Names) {o o' : Obj} (hne : o' ≠ o) : (ν.add o).lease o' = ν.lease o' :=
  Function.update_of_ne hne ..

def next (ν : Names) (e : Event C T) : Names :=
  match obtained e with
  | some o => ν.add o
  | none => ν

/-- The event, as the register of leases sees it. -/
def view [Inhabited T] (ν : Names) : Event C T → Option (Lease.Event C T)
  | (.acquire c, .acquired (some _) (some v) _ _) => some (.grant c ν.granted v)
  | (.create c, .created (some _)) => some (.grant c ν.granted default)
  | (.release c (some o), _) => some (.surrender c (ν.lease o))
  | (.destroy c o, _) => some (.surrender c (ν.lease o))
  | (.write c o v, _) => some (.edit c (ν.lease o) v)
  | _ => none

def views [Inhabited T] (ν : Names) : List (Event C T) → List (Lease.Event C T)
  | [] => []
  | e :: tr => (ν.view e).toList ++ (ν.next e).views tr

theorem views_concat [Inhabited T] (ν : Names) (tr : List (Event C T)) (e : Event C T) :
    ν.views (tr ++ [e]) = ν.views tr ++ ((tr.foldl next ν).view e).toList := by
  induction tr generalizing ν with
  | nil => simp [views]
  | cons e' tr ih => simp [views, ih]

end Names

def names (tr : List (Event C T)) : Names := tr.foldl Names.next ⟨fun _ => 0, 0⟩

/-- The lease under which `o` was obtained last. -/
def tenancy (tr : List (Event C T)) (o : Obj) : ℕ := (names tr).lease o

/-- The run, as the register of leases sees it. -/
def leases [Inhabited T] (tr : List (Event C T)) : List (Lease.Event C T) :=
  Names.views ⟨fun _ => 0, 0⟩ tr

theorem names_concat (tr : List (Event C T)) (e : Event C T) :
    names (tr ++ [e]) = (names tr).next e := by
  simp [names]

theorem leases_concat [Inhabited T] (tr : List (Event C T)) (e : Event C T) :
    leases (tr ++ [e]) = leases tr ++ ((names tr).view e).toList :=
  Names.views_concat _ tr e

/-! ## Leases in force -/

/-- The leases in force are the objects owned, each with its owner and its contents. -/
structure Lets [Inhabited T] (ν : Names) (s : State C T) (x : Lease.Register C T) : Prop where
  granted : x.granted = ν.granted
  below : ∀ c o, (c, o) ∈ s.owned → ν.lease o < ν.granted
  distinct : ∀ c o c' o', (c, o) ∈ s.owned → (c', o') ∈ s.owned → ν.lease o = ν.lease o' → o = o'
  held : ∀ c o, (c, o) ∈ s.owned → x.lease (ν.lease o) = some (c, s.heap.contents o)
  covered : ∀ i c v, x.lease i = some (c, v) → ∃ o, (c, o) ∈ s.owned ∧ ν.lease o = i

section

variable [DecidableEq C] [Inhabited T] {s t : State C T} {k : Ledger.Book Obj (Place C)} {ν : Names}
  {x : Lease.Register C T} {c : C} {o : Obj}

omit [DecidableEq C] in
/-- A client obtains an object that nobody owns. -/
theorem Lets.grant (h : Lets ν s x) (hfree : ∀ c', (c', o) ∉ s.owned)
    (howned : t.owned = s.owned ++ [(c, o)])
    (hcontents : ∀ o, t.heap.contents o = s.heap.contents o) :
    ∃ y, Lease.Step x (.grant c ν.granted (s.heap.contents o)) y ∧
      Lets (ν.add o) t y := by
  have hmem : ∀ {c' o'}, (c', o') ∈ t.owned ↔ (c', o') ∈ s.owned ∨ (c' = c ∧ o' = o) := by
    intro c' o'
    rw [howned]
    simp
  have hold : ∀ {c' o'}, (c', o') ∈ s.owned → (ν.add o).lease o' = ν.lease o' := by
    intro c' o' howned'
    apply ν.add_of_ne
    rintro rfl
    exact hfree c' howned'
  have hnew : (ν.add o).lease o = ν.granted := ν.add_self o
  refine ⟨_, h.granted ▸ Lease.Step.grant x c _, ⟨rfl, ?_, ?_, ?_, ?_⟩⟩
  · intro c' o' hmem'
    rcases hmem.1 hmem' with howned' | ⟨rfl, rfl⟩
    · rw [hold howned']
      exact Nat.lt_succ_of_lt (h.below c' o' howned')
    · rw [hnew]
      exact Nat.lt_succ_self _
  · intro c₁ o₁ c₂ o₂ hmem₁ hmem₂ heq
    rcases hmem.1 hmem₁ with howned₁ | ⟨rfl, rfl⟩ <;> rcases hmem.1 hmem₂ with howned₂ | ⟨rfl, rfl⟩
    · rw [hold howned₁, hold howned₂] at heq
      exact h.distinct c₁ o₁ c₂ o₂ howned₁ howned₂ heq
    · rw [hold howned₁, hnew] at heq
      exact absurd heq (Nat.ne_of_lt (h.below c₁ o₁ howned₁))
    · rw [hold howned₂, hnew] at heq
      exact absurd heq.symm (Nat.ne_of_lt (h.below c₂ o₂ howned₂))
    · rfl
  · intro c' o' hmem'
    rcases hmem.1 hmem' with howned' | ⟨rfl, rfl⟩
    · rw [hold howned', hcontents, ← h.held c' o' howned']
      exact Function.update_of_ne (Nat.ne_of_lt (h.below c' o' howned')) ..
    · rw [hnew, hcontents]
      exact Function.update_self ..
  · intro i c' v hlease
    simp only [Function.update_apply] at hlease
    split_ifs at hlease with hi
    · cases hlease
      exact ⟨o, hmem.2 (Or.inr ⟨rfl, rfl⟩), hnew.trans hi.symm⟩
    · obtain ⟨o', howned', rfl⟩ := h.covered i c' v hlease
      exact ⟨o', hmem.2 (Or.inl howned'), hold howned'⟩

/-- A client obtains a new object. -/
theorem Lets.grant_new (h : Lets ν s x) (hk : Custody s k) (c : C) :
    ∃ y, Lease.Step x (.grant c ν.granted default) y ∧ Lets (ν.add s.heap.created)
      ⟨s.memoryPool, s.heap.makeUnique.2, s.owned ++ [(c, s.heap.created)]⟩ y := by
  have hnew : ∀ c', (c', s.heap.created) ∉ s.owned := fun c' hmem =>
    Nat.lt_irrefl _ (hk.lt_created (hk.owned_iff.1 hmem))
  have hdefault : s.heap.contents s.heap.created = default := Heap.contents_of_le (Nat.le_refl _)
  rw [← hdefault]
  exact h.grant hnew rfl s.heap.contents_makeUnique

/-- A client gives up an object. -/
theorem Lets.surrender (h : Lets ν s x) (hk : Custody s k) (hat : (c, o) ∈ s.owned)
    (howned : t.owned = s.owned.erase (c, o))
    (hcontents : ∀ o, t.heap.contents o = s.heap.contents o) :
    ∃ y, Lease.Step x (.surrender c (ν.lease o)) y ∧ Lets ν t y := by
  have hmem : ∀ {c' o'}, (c', o') ∈ t.owned ↔ (c', o') ∈ s.owned ∧ o' ≠ o := by
    intro c' o'
    rw [howned, hk.owned_nodup.mem_erase_iff, and_comm]
    refine and_congr_right fun howned' => not_congr ⟨congrArg Prod.snd, ?_⟩
    rintro rfl
    rw [hk.owner_unique howned' hat]
  refine ⟨_, .surrender (h.held c o hat), ⟨h.granted, ?_, ?_, ?_, ?_⟩⟩
  · exact fun c' o' hmem' => h.below c' o' (hmem.1 hmem').1
  · exact fun c₁ o₁ c₂ o₂ hmem₁ hmem₂ => h.distinct c₁ o₁ c₂ o₂ (hmem.1 hmem₁).1 (hmem.1 hmem₂).1
  · intro c' o' hmem'
    obtain ⟨howned', hne⟩ := hmem.1 hmem'
    rw [hcontents, ← h.held c' o' howned']
    exact Function.update_of_ne (fun heq => hne (h.distinct c' o' c o howned' hat heq)) ..
  · intro i c' v hlease
    simp only [Function.update_apply] at hlease
    split_ifs at hlease with hi
    obtain ⟨o', howned', rfl⟩ := h.covered i c' v hlease
    exact ⟨o', hmem.2 ⟨howned', fun heq => hi (congrArg ν.lease heq)⟩, rfl⟩

/-- A client writes to its object. -/
theorem Lets.edit (h : Lets ν s x) (hk : Custody s k) (hat : (c, o) ∈ s.owned) {v : T}
    (howned : t.owned = s.owned)
    (hcontents : ∀ o', t.heap.contents o' = if o' = o then v else s.heap.contents o') :
    ∃ y, Lease.Step x (.edit c (ν.lease o) v) y ∧ Lets ν t y := by
  refine ⟨_, .edit v (h.held c o hat), ⟨h.granted, ?_, ?_, ?_, ?_⟩⟩
  · rw [howned]
    exact h.below
  · rw [howned]
    exact h.distinct
  · intro c' o' hmem
    rw [howned] at hmem
    rw [hcontents]
    by_cases ho : o' = o
    · subst ho
      rw [if_pos rfl, hk.owner_unique hmem hat]
      exact Function.update_self ..
    · have hne : ν.lease o' ≠ ν.lease o := fun heq => ho (h.distinct c' o' c o hmem hat heq)
      rw [if_neg ho, ← h.held c' o' hmem]
      exact Function.update_of_ne hne ..
  · intro i c' v' hlease
    rw [howned]
    simp only [Function.update_apply] at hlease
    split_ifs at hlease with hi
    · cases hlease
      exact ⟨o, hat, hi.symm⟩
    · exact h.covered i c' v' hlease

theorem lets_step {e : Event C T} (hk : Custody s k) (h : Lets ν s x) (hmove : Move s e t) :
    (ν.view e = none → Lets (ν.next e) t x) ∧
      ∀ z, ν.view e = some z → ∃ y, Lease.Step x z y ∧ Lets (ν.next e) t y := by
  cases hmove with
  | @allocate c hempty =>
    refine ⟨nofun, ?_⟩
    rintro z ⟨⟩
    exact h.grant_new hk c
  | @recycle c p q hpool =>
    cases p with
    | none => exact absurd (hpool ▸ List.mem_cons_self) hk.noNull
    | some o =>
      have hpooled := hk.pooled_iff.1 (hpool ▸ List.mem_cons_self : some o ∈ s.memoryPool.pool)
      have hfree : ∀ c', (c', o) ∉ s.owned := by
        intro c' hmem
        rw [hk.owned_iff.1 hmem] at hpooled
        cases hpooled
      rw [Heap.read_of_lt (hk.lt_created hpooled)]
      refine ⟨nofun, ?_⟩
      rintro z ⟨⟩
      exact h.grant hfree rfl fun _ => rfl
  | ignore | report => exact ⟨fun _ => h, nofun⟩
  | store howned _ | discard howned _ | destroy howned =>
    refine ⟨nofun, ?_⟩
    rintro z ⟨⟩
    exact h.surrender hk howned rfl fun _ => rfl
  | @create c =>
    refine ⟨nofun, ?_⟩
    rintro z ⟨⟩
    exact h.grant_new hk c
  | write howned =>
    refine ⟨nofun, ?_⟩
    rintro z ⟨⟩
    exact h.edit hk howned rfl (Heap.contents_write (hk.lt_created (hk.owned_iff.1 howned)) _)

end

/-! ## Whole runs -/

variable [DecidableEq C] [Inhabited T] {initialSize maxSize : ℕ} {tr : List (Event C T)}
  {s : State C T}

/-- Every run of the clients is a run of the register of leases. -/
theorem lets_of_run (hrun : Run initialSize maxSize tr s) :
    ∃ x, Path Lease.Step Lease.empty (leases tr) x ∧ Lets (names tr) s x := by
  refine Path.history (I := fun tr (s : State C T) =>
    ∃ x, Path Lease.Step Lease.empty (leases tr) x ∧ Lets (names tr) s x) ?_ ?_ hrun
  · refine ⟨_, .nil _, ⟨rfl, ?_, ?_, ?_, nofun⟩⟩
    all_goals
      rw [start_eq]
      exact nofun
  · intro tr s e t hpre ih hstep
    obtain ⟨x, hpath, hx⟩ := ih
    obtain ⟨k, -, hk⟩ := custody_of_run hpre
    obtain ⟨hsilent, hmatch⟩ := lets_step hk hx (step_iff_move.1 hstep)
    rw [leases_concat, names_concat]
    cases hv : (names tr).view e with
    | none =>
      rw [Option.toList_none, List.append_nil]
      exact ⟨x, hpath, hsilent hv⟩
    | some z =>
      obtain ⟨y, hz, hy⟩ := hmatch z hv
      exact ⟨y, Path.concat_iff.2 ⟨x, hpath, hz⟩, hy⟩

/-- The client asks for an object. -/
def gaining : Action C T → Bool
  | .acquire _ | .create _ => true
  | _ => false

/-- Whoever asks for an object is granted a lease. -/
theorem granted_of_run (hrun : Run initialSize maxSize tr s) :
    (names tr).granted = tr.countP fun e => gaining e.1 := by
  refine Path.history (I := fun tr (_ : State C T) =>
    (names tr).granted = tr.countP fun e => gaining e.1) rfl ?_ hrun
  intro tr s e t hpre ih hstep
  rw [names_concat, List.countP_append, ← ih]
  have hmove := step_iff_move.1 hstep
  cases hmove with
  | @recycle c p q hpool =>
    obtain ⟨k, -, hk⟩ := custody_of_run hpre
    cases p with
    | none => exact absurd (hpool ▸ List.mem_cons_self) hk.noNull
    | some o => rfl
  | _ => rfl

/-- If the clients clean up before `Release`, every lease is granted with the contents of a new
object. -/
theorem granted_as_new (hrun : Run initialSize maxSize tr s) (hclean : Cleaned tr) :
    ∀ c i v, .grant c i v ∈ leases tr → v = default := by
  revert hclean
  refine Path.history (I := fun tr (_ : State C T) => Cleaned tr →
    ∀ c i v, .grant c i v ∈ leases tr → v = default) ?_ ?_ hrun
  · exact fun _ _ _ _ hmem => absurd hmem List.not_mem_nil
  · intro tr s e t hpre ih hstep hclean c i v hmem
    rw [leases_concat, List.mem_append] at hmem
    rcases hmem with hmem | hmem
    · exact ih hclean.of_concat c i v hmem
    · rw [Option.mem_toList] at hmem
      obtain ⟨a, r⟩ := e
      cases a with
      | acquire c' =>
        obtain ⟨o, found, allocated, rfl⟩ := acquired_as_new hpre hclean.of_concat hstep
        cases hmem
        rfl
      | create c' =>
        have hmove := step_iff_move.1 hstep
        cases hmove
        cases hmem
        rfl
      | release c' p => cases p <;> cases hmem
      | getPoolSize | destroy | write => cases hmem

/-- Whatever the parameters of the pool, its clients could as well be served by a register of leases,
which never gives two of them the same object and reuses none: every `Acquire` (and every creation)
is a new lease, and at any moment the leases in force are the objects owned, with the same owners and
contents.  For clients that clean up before `Release`, the leases are granted with the contents of a
new object. -/
theorem transparent (hrun : Run initialSize maxSize tr s) :
    ∃ x, Path Lease.Step Lease.empty (leases tr) x ∧
      (x.granted = tr.countP fun e => gaining e.1) ∧
      (∀ i c v, x.lease i = some (c, v) ↔
        ∃ o, (c, o) ∈ s.owned ∧ tenancy tr o = i ∧ s.heap.contents o = v) ∧
      (∀ c o c' o', (c, o) ∈ s.owned → (c', o') ∈ s.owned → tenancy tr o = tenancy tr o' → o = o') ∧
      (Cleaned tr → ∀ c i v, .grant c i v ∈ leases tr → v = default) := by
  obtain ⟨x, hpath, hx⟩ := lets_of_run hrun
  refine ⟨x, hpath, hx.granted.trans (granted_of_run hrun), fun i c v => ⟨fun hlease => ?_, ?_⟩,
    hx.distinct, granted_as_new hrun⟩
  · obtain ⟨o, howned, rfl⟩ := hx.covered i c v hlease
    have heq := (hx.held c o howned).symm.trans hlease
    cases heq
    exact ⟨o, howned, rfl, rfl⟩
  · rintro ⟨o, howned, rfl, rfl⟩
    exact hx.held c o howned

/-- Client 0 empties the buffer before it releases it to client 1. -/
def tidyTrace : List (Event ℕ PacketBuffer) :=
  [(.acquire 0, .acquired (some 0) (some []) 1 false), (.write 0 0 [7], .done),
    (.write 0 0 [], .done), (.release 0 (some 0), .released 0 true false),
    (.acquire 1, .acquired (some 0) (some []) 1 false), (.write 1 0 [42], .done)]

def tidyState : State ℕ PacketBuffer := ⟨⟨[], 1⟩, ⟨[[42]], []⟩, [(1, 0)]⟩

theorem run_tidy : Run 1 1 tidyTrace tidyState := by decide

theorem transparent_tidy :
    ∃ x, Path Lease.Step Lease.empty (leases tidyTrace) x ∧
      (x.granted = tidyTrace.countP fun e => gaining e.1) ∧
      (∀ i c v, x.lease i = some (c, v) ↔ ∃ o, (c, o) ∈ tidyState.owned ∧
        tenancy tidyTrace o = i ∧ tidyState.heap.contents o = v) ∧
      (∀ c o c' o', (c, o) ∈ tidyState.owned → (c', o') ∈ tidyState.owned →
        tenancy tidyTrace o = tenancy tidyTrace o' → o = o') ∧
      ∀ c i v, .grant c i v ∈ leases tidyTrace → v = default := by
  obtain ⟨x, hpath, hgranted, hlease, hdistinct, hnew⟩ := transparent run_tidy
  exact ⟨x, hpath, hgranted, hlease, hdistinct, hnew (by decide)⟩

/-- If the clients clean up before `Release`, an object contains what its owner wrote last since it
obtained the object, and is as new if there is nothing; nobody else has written to it since. -/
theorem own_contents (hrun : Run initialSize maxSize tr s) (hclean : Cleaned tr) {c : C} {o : Obj}
    (howned : (c, o) ∈ s.owned) :
    s.heap.contents o =
        ((Lease.edits (tenancy tr o) (leases tr)).map Prod.snd).getLastD default ∧
      ∀ z ∈ Lease.edits (tenancy tr o) (leases tr), z.1 = c := by
  obtain ⟨x, hpath, hx⟩ := lets_of_run hrun
  obtain ⟨v, hgrant, hcontents, htenant⟩ := Lease.contents_of_path hpath (hx.held c o howned)
  rw [granted_as_new hrun hclean c _ v hgrant] at hcontents
  exact ⟨hcontents, htenant⟩

theorem own_contents_tidy :
    tidyState.heap.contents 0 =
        ((Lease.edits (tenancy tidyTrace 0) (leases tidyTrace)).map Prod.snd).getLastD default ∧
      ∀ z ∈ Lease.edits (tenancy tidyTrace 0) (leases tidyTrace), z.1 = 1 :=
  own_contents run_tidy (by decide) (by decide)

end NexusCore
