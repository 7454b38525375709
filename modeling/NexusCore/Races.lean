import NexusCore.Linearizable

/-!
# No data races

The clients of `Mutex` run in parallel as long as their statements do not touch the same memory.
`Accesses` lists the memory that the next statement of a client reads or writes, and the list is
complete: what a statement changes is on it, and a statement does the same whatever is stored where it
does not access (`Touches`).  No two clients are ever about to access the same location (`race_free`),
and no statement touches an object that does not exist any more (`memory_safe`).  For `pool_` and
`max_size_` this is the lock's doing, for the objects that of their exclusive ownership.
-/

open Transition

namespace NexusCore

variable {C T : Type*} [DecidableEq C]

/-- What clients share, besides the lock. -/
inductive Location where
  | pool
  | maxSize
  | object (o : Obj)

/-- The next statement of `c` reads the location, or writes to it. -/
inductive Accesses (f : Locked C T) (c : C) : Location → Bool → Prop
  | test (hat : f.frame c = .acquireTest) : Accesses f c .pool false
  | move (hat : f.frame c = .acquireMove) : Accesses f c .pool true
  | pop {obj : UniquePtr} (hat : f.frame c = .acquirePop obj) : Accesses f c .pool true
  /-- `pop()` destroys the slot with what it still points to. -/
  | popped {obj : UniquePtr} {o : Obj} {q : Queue} (hat : f.frame c = .acquirePop obj)
      (hfront : f.memoryPool.pool = some o :: q) : Accesses f c (.object o) true
  | size {obj : Obj} (hat : f.frame c = .releaseSize obj) : Accesses f c .pool false
  | limit {obj : Obj} (hat : f.frame c = .releaseSize obj) : Accesses f c .maxSize false
  | push {obj : Obj} (hat : f.frame c = .releasePush obj) : Accesses f c .pool true
  | discard {o : Obj} (hat : f.frame c = .releaseReturn (some o)) : Accesses f c (.object o) true
  | unwind {e : Fault} {o : Obj} (hat : f.frame c = .unwindReturn e (some o)) :
      Accesses f c (.object o) true
  | count (hat : f.frame c = .sizeRead) : Accesses f c .pool false
  | destroy {o : Obj} (hat : f.frame c = .own (.destroy o)) (howned : (c, o) ∈ f.owned) :
      Accesses f c (.object o) true
  | write {o : Obj} {v : T} (hat : f.frame c = .own (.write o v)) (howned : (c, o) ∈ f.owned) :
      Accesses f c (.object o) true
  | read {o : Obj} (hat : f.frame c = .own (.read o)) (howned : (c, o) ∈ f.owned) :
      Accesses f c (.object o) false

variable {f g : Locked C T}

omit [DecidableEq C] in
theorem Accesses.critical {c : C} {loc : Location} {w : Bool} (h : Accesses f c loc w)
    (hloc : ∀ o, loc ≠ .object o) : (f.frame c).critical = true := by
  cases h with
  | test hat | move hat | pop hat | size hat | limit hat | push hat | count hat =>
    rw [hat]
    rfl
  | popped | discard | unwind | destroy | write | read => exact absurd rfl (hloc _)

/-! ## What a change of the heap changes -/

namespace Heap

/-- The contents of `o` differ, or its destructor has run in between. -/
def Changes (h h' : Heap T) (o : Obj) : Prop :=
  h'.read (some o) ≠ h.read (some o) ∨ h'.destroyed.count o ≠ h.destroyed.count o

variable {h : Heap T} {o : Obj}

theorem not_changes_self (h : Heap T) (o : Obj) : ¬ h.Changes h o :=
  not_or.2 ⟨not_not.2 rfl, not_not.2 rfl⟩

theorem not_changes_makeUnique [Inhabited T] (ho : o < h.created) :
    ¬ h.Changes h.makeUnique.2 o := by
  have hread : h.makeUnique.2.read (some o) = h.read (some o) := by
    simp only [makeUnique, read, Option.bind_some]
    exact List.getElem?_append_left ho
  exact not_or.2 ⟨not_not.2 hread, not_not.2 rfl⟩

theorem eq_of_changes_destruct {p : UniquePtr} (hchange : h.Changes (h.destruct p) o) :
    p = some o := by
  rcases hchange with hread | hcount
  · exact absurd rfl hread
  · by_contra hne
    apply hcount
    have hnot : o ∉ p.toList := by rwa [Option.mem_toList]
    rw [destruct, List.count_append, List.count_eq_zero.2 hnot, Nat.add_zero]

theorem read_write_of_ne {o' : Obj} (hne : o ≠ o') (v : T) :
    (h.write o v).read (some o') = h.read (some o') :=
  List.getElem?_set_ne hne

theorem eq_of_changes_write {o' : Obj} {v : T} (hchange : h.Changes (h.write o' v) o) :
    o' = o := by
  rcases hchange with hread | hcount
  · by_contra hne
    exact hread (read_write_of_ne hne v)
  · exact absurd rfl hcount

theorem write_makeUnique [Inhabited T] (ho : o < h.created) (v : T) :
    (h.write o v).makeUnique = (h.makeUnique.1, h.makeUnique.2.write o v) := by
  have hnew : (h.write o v).created = h.created := created_write h o v
  unfold makeUnique
  rw [hnew]
  simp only [write, List.set_append_left _ _ ho]

theorem write_comm {o' : Obj} (hne : o ≠ o') (v v' : T) :
    (h.write o v).write o' v' = (h.write o' v').write o v :=
  congrArg (Heap.mk · h.destroyed) (List.set_comm _ _ hne)

end Heap

/-! ## What a statement touches -/

namespace Locked

/-! The same state with something else in one location. -/

def setPool (f : Locked C T) (q : Queue) : Locked C T :=
  { f with memoryPool := { f.memoryPool with pool := q } }

def setMaxSize (f : Locked C T) (n : ℕ) : Locked C T :=
  { f with memoryPool := { f.memoryPool with maxSize := n } }

def setObject (f : Locked C T) (o : Obj) (v : T) : Locked C T :=
  { f with heap := f.heap.write o v }

end Locked

section

variable [Inhabited T]

/-- The step from `f` to `g` is one of `c`.  What it changes of the memory that is shared, its
statement accesses, and it does the same whatever there is where its statement does not access. -/
structure Touches (f : Locked C T) (l : Option (Seen C T)) (g : Locked C T) (c : C) : Prop where
  moves : g.frame c ≠ f.frame c
  others : ∀ c', c' ≠ c → g.frame c' = f.frame c'
  pool : g.memoryPool.pool ≠ f.memoryPool.pool → Accesses f c .pool true
  maxSize : g.memoryPool.maxSize = f.memoryPool.maxSize
  object : ∀ o, o < f.heap.created → f.heap.Changes g.heap o → Accesses f c (.object o) true
  anyPool : (∀ w, ¬ Accesses f c .pool w) → ∀ q, Exec (f.setPool q) l (g.setPool q)
  anyMaxSize : (∀ w, ¬ Accesses f c .maxSize w) → ∀ n, Exec (f.setMaxSize n) l (g.setMaxSize n)
  anyObject : ∀ o, o < f.heap.created → (∀ w, ¬ Accesses f c (.object o) w) →
    ∀ v, Exec (f.setObject o v) l (g.setObject o v)

variable {l : Option (Seen C T)} {c : C} {k₀ k : Frame T}

omit [Inhabited T] in
theorem frames_of_update {fr : C → Frame T} (hat : fr c = k₀) (hne : k ≠ k₀) :
    Function.update fr c k c ≠ fr c ∧ ∀ c', c' ≠ c → Function.update fr c k c' = fr c' := by
  refine ⟨?_, fun c' hc' => Function.update_of_ne hc' ..⟩
  rw [Function.update_self, hat]
  exact hne

/-- A step that touches neither the pool nor an object. -/
theorem Touches.of_quiet {m : Option C} {w : List (C × Obj)} (hat : f.frame c = k₀) (hne : k ≠ k₀)
    (hany : ∀ mp h, Exec { f with memoryPool := mp, heap := h } l
      ⟨⟨mp, h, w⟩, m, Function.update f.frame c k⟩) :
    Touches f l ⟨⟨f.memoryPool, f.heap, w⟩, m, Function.update f.frame c k⟩ c where
  moves := (frames_of_update hat hne).1
  others := (frames_of_update hat hne).2
  pool := fun h => absurd rfl h
  maxSize := rfl
  object := fun o _ h => absurd h (f.heap.not_changes_self o)
  anyPool := fun _ _ => hany _ _
  anyMaxSize := fun _ _ => hany _ _
  anyObject := fun _ _ _ _ => hany _ _

/-- A step that touches the pool, but no object. -/
theorem Touches.of_pool {q : Queue} {b : Bool} (hat : f.frame c = k₀) (hne : k ≠ k₀)
    (haccess : Accesses f c .pool b) (hwrite : q ≠ f.memoryPool.pool → Accesses f c .pool true)
    (hmaxSize : (∀ w, ¬ Accesses f c .maxSize w) → ∀ n, Exec (f.setMaxSize n) l
      ⟨⟨⟨q, n⟩, f.heap, f.owned⟩, f.mutex, Function.update f.frame c k⟩)
    (hany : ∀ h, Exec { f with heap := h } l
      ⟨⟨⟨q, f.memoryPool.maxSize⟩, h, f.owned⟩, f.mutex, Function.update f.frame c k⟩) :
    Touches f l ⟨⟨⟨q, f.memoryPool.maxSize⟩, f.heap, f.owned⟩, f.mutex,
      Function.update f.frame c k⟩ c where
  moves := (frames_of_update hat hne).1
  others := (frames_of_update hat hne).2
  pool := hwrite
  maxSize := rfl
  object := fun o _ h => absurd h (f.heap.not_changes_self o)
  anyPool := fun h => absurd haccess (h b)
  anyMaxSize := hmaxSize
  anyObject := fun _ _ _ _ => hany _

/-- A step that touches objects only. -/
theorem Touches.of_heap {h : Heap T} {w : List (C × Obj)} (hat : f.frame c = k₀) (hne : k ≠ k₀)
    (hwrite : ∀ o, o < f.heap.created → f.heap.Changes h o → Accesses f c (.object o) true)
    (hany : ∀ mp, Exec { f with memoryPool := mp } l
      ⟨⟨mp, h, w⟩, f.mutex, Function.update f.frame c k⟩)
    (hobject : ∀ o, o < f.heap.created → (∀ w, ¬ Accesses f c (.object o) w) →
      ∀ v, Exec (f.setObject o v) l
        ⟨⟨f.memoryPool, h.write o v, w⟩, f.mutex, Function.update f.frame c k⟩) :
    Touches f l ⟨⟨f.memoryPool, h, w⟩, f.mutex, Function.update f.frame c k⟩ c where
  moves := (frames_of_update hat hne).1
  others := (frames_of_update hat hne).2
  pool := fun h => absurd rfl h
  maxSize := rfl
  object := hwrite
  anyPool := fun _ _ => hany _
  anyMaxSize := fun _ _ => hany _
  anyObject := hobject

/-- A statement that makes an object touches none that there was. -/
theorem Touches.of_makeUnique {w : List (C × Obj)} (hat : f.frame c = k₀) (hne : k ≠ k₀)
    (hany : ∀ mp h, h.makeUnique.1 = f.heap.makeUnique.1 →
      Exec { f with memoryPool := mp, heap := h } l
        ⟨⟨mp, h.makeUnique.2, w⟩, f.mutex, Function.update f.frame c k⟩) :
    Touches f l ⟨⟨f.memoryPool, f.heap.makeUnique.2, w⟩, f.mutex, Function.update f.frame c k⟩ c := by
  refine .of_heap hat hne (fun o ho h => absurd h (Heap.not_changes_makeUnique ho))
    (fun mp => hany mp _ rfl) fun o ho _ v => ?_
  have hwrite := Heap.write_makeUnique ho v
  have hexec := hany f.memoryPool (f.heap.write o v) (by rw [hwrite])
  rw [hwrite] at hexec
  exact hexec

/-- A statement that destroys what a pointer leads to. -/
theorem Touches.of_destruct {p : UniquePtr} {w : List (C × Obj)} (hat : f.frame c = k₀)
    (hne : k ≠ k₀) (haccess : ∀ o, p = some o → Accesses f c (.object o) true)
    (hany : ∀ mp h, Exec { f with memoryPool := mp, heap := h } l
      ⟨⟨mp, h.destruct p, w⟩, f.mutex, Function.update f.frame c k⟩) :
    Touches f l ⟨⟨f.memoryPool, f.heap.destruct p, w⟩, f.mutex, Function.update f.frame c k⟩ c :=
  .of_heap hat hne (fun o _ hchange => haccess o (Heap.eq_of_changes_destruct hchange))
    (fun mp => hany mp _) fun _ _ _ _ => hany _ _

theorem touches_pop {obj : UniquePtr} (hat : f.frame c = .acquirePop obj) :
    Touches f none
      ({ f with
          memoryPool := { f.memoryPool with pool := (f.memoryPool.pool.pop f.heap).1 }
          heap := (f.memoryPool.pool.pop f.heap).2 }.goto c (.acquireUnlock obj)) c where
  moves := (frames_of_update (k := .acquireUnlock obj) hat nofun).1
  others := (frames_of_update (k := .acquireUnlock obj) hat nofun).2
  pool := fun _ => .pop hat
  maxSize := rfl
  object := fun o _ hchange => by
    have hchange : f.heap.Changes (f.memoryPool.pool.pop f.heap).2 o := hchange
    cases hq : f.memoryPool.pool with
    | nil =>
      rw [hq] at hchange
      exact absurd hchange (f.heap.not_changes_self o)
    | cons p q =>
      rw [hq] at hchange
      rw [Heap.eq_of_changes_destruct hchange] at hq
      exact .popped hat hq
  anyPool := fun h => absurd (.pop hat) (h true)
  anyMaxSize := fun _ n => .micro (.acquirePop (f := f.setMaxSize n) hat)
  anyObject := fun o _ _ v => by
    have hpop : f.memoryPool.pool.pop (f.heap.write o v) =
        ((f.memoryPool.pool.pop f.heap).1, (f.memoryPool.pool.pop f.heap).2.write o v) := by
      cases f.memoryPool.pool <;> rfl
    have hstep := Micro.acquirePop (f := f.setObject o v) hat
    have hheap : (f.setObject o v).memoryPool.pool.pop (f.setObject o v).heap = _ := hpop
    rw [hheap] at hstep
    exact .micro hstep

theorem Micro.touches (h : Micro f l g) : ∃ c, Touches f l g c := by
  cases h with
  | callOwn hat => exact ⟨_, .of_quiet hat nofun fun _ _ => .micro (.callOwn hat)⟩
  | callAcquire hat => exact ⟨_, .of_quiet hat nofun fun _ _ => .micro (.callAcquire hat)⟩
  | acquireLock hat hfree =>
    exact ⟨_, .of_quiet hat nofun fun _ _ => .micro (.acquireLock hat hfree)⟩
  | acquireUnlock hat => exact ⟨_, .of_quiet hat nofun fun _ _ => .micro (.acquireUnlock hat)⟩
  | acquireReturn hat => exact ⟨_, .of_quiet hat nofun fun _ _ => .micro (.acquireReturn hat)⟩
  | callRelease hat howns =>
    refine ⟨_, .of_quiet hat nofun fun mp h => .micro ?_⟩
    exact .callRelease (f := { f with memoryPool := mp, heap := h }) hat howns
  | releaseNull hat => exact ⟨_, .of_quiet hat nofun fun _ _ => .micro (.releaseNull hat)⟩
  | releaseNonnull hat => exact ⟨_, .of_quiet hat nofun fun _ _ => .micro (.releaseNonnull hat)⟩
  | releaseLock hat hfree =>
    exact ⟨_, .of_quiet hat nofun fun _ _ => .micro (.releaseLock hat hfree)⟩
  | releaseUnlock hat => exact ⟨_, .of_quiet hat nofun fun _ _ => .micro (.releaseUnlock hat)⟩
  | callSize hat => exact ⟨_, .of_quiet hat nofun fun _ _ => .micro (.callSize hat)⟩
  | sizeLock hat hfree => exact ⟨_, .of_quiet hat nofun fun _ _ => .micro (.sizeLock hat hfree)⟩
  | sizeUnlock hat => exact ⟨_, .of_quiet hat nofun fun _ _ => .micro (.sizeUnlock hat)⟩
  | unwindUnlock hat => exact ⟨_, .of_quiet hat nofun fun _ _ => .micro (.unwindUnlock hat)⟩
  | answer hat => exact ⟨_, .of_quiet hat nofun fun _ _ => .micro (.answer hat)⟩
  | acquireEmpty hat hempty =>
    exact ⟨_, .of_pool hat nofun (.test hat) (fun h => absurd rfl h)
      (fun _ n => .micro (.acquireEmpty (f := f.setMaxSize n) hat hempty))
      fun h => .micro (.acquireEmpty (f := { f with heap := h }) hat hempty)⟩
  | acquireNonempty hat hempty =>
    exact ⟨_, .of_pool hat nofun (.test hat) (fun h => absurd rfl h)
      (fun _ n => .micro (.acquireNonempty (f := f.setMaxSize n) hat hempty))
      fun h => .micro (.acquireNonempty (f := { f with heap := h }) hat hempty)⟩
  | acquireMove hat =>
    exact ⟨_, .of_pool hat nofun (.move hat) (fun _ => .move hat)
      (fun _ n => .micro (.acquireMove (f := f.setMaxSize n) hat))
      fun h => .micro (.acquireMove (f := { f with heap := h }) hat)⟩
  | releaseRoom hat hroom =>
    exact ⟨_, .of_pool hat nofun (.size hat) (fun h => absurd rfl h)
      (fun h => absurd (.limit hat) (h false))
      fun h => .micro (.releaseRoom (f := { f with heap := h }) hat hroom)⟩
  | releaseFull hat hfull =>
    exact ⟨_, .of_pool hat nofun (.size hat) (fun h => absurd rfl h)
      (fun h => absurd (.limit hat) (h false))
      fun h => .micro (.releaseFull (f := { f with heap := h }) hat hfull)⟩
  | releasePush hat =>
    exact ⟨_, .of_pool hat nofun (.push hat) (fun _ => .push hat)
      (fun _ n => .micro (.releasePush (f := f.setMaxSize n) hat))
      fun h => .micro (.releasePush (f := { f with heap := h }) hat)⟩
  | sizeRead hat =>
    exact ⟨_, .of_pool hat nofun (.count hat) (fun h => absurd rfl h)
      (fun _ n => .micro (.sizeRead (f := f.setMaxSize n) hat))
      fun h => .micro (.sizeRead (f := { f with heap := h }) hat)⟩
  | acquirePop hat => exact ⟨_, touches_pop hat⟩
  | acquireMake hat =>
    refine ⟨_, .of_makeUnique hat nofun fun mp h hnew => ?_⟩
    rw [← hnew]
    exact .micro (.acquireMake (f := { f with memoryPool := mp, heap := h }) hat)
  | create hat =>
    refine ⟨_, .of_makeUnique hat nofun fun mp h hnew => ?_⟩
    rw [← hnew]
    exact .micro (.create (f := { f with memoryPool := mp, heap := h }) hat)
  | releaseReturn hat =>
    refine ⟨_, .of_destruct hat nofun ?_ fun mp h => ?_⟩
    · rintro o rfl
      exact .discard hat
    · exact .micro (.releaseReturn (f := { f with memoryPool := mp, heap := h }) hat)
  | unwindReturn hat =>
    refine ⟨_, .of_destruct hat nofun ?_ fun mp h => ?_⟩
    · rintro o rfl
      exact .unwind hat
    · exact .micro (.unwindReturn (f := { f with memoryPool := mp, heap := h }) hat)
  | destroy hat howned =>
    refine ⟨_, .of_destruct hat nofun ?_ fun mp h => ?_⟩
    · rintro o ⟨⟩
      exact .destroy hat howned
    · exact .micro (.destroy (f := { f with memoryPool := mp, heap := h }) hat howned)
  | @write c o v hat howned =>
    refine ⟨_, .of_heap hat nofun (fun o' _ hchange => ?_)
      (fun mp => .micro (.write (f := { f with memoryPool := mp }) hat howned))
      fun o' _ hquiet v' => ?_⟩
    · rw [← Heap.eq_of_changes_write hchange]
      exact .write hat howned
    · have hne : o' ≠ o := by
        rintro rfl
        exact hquiet true (.write hat howned)
      rw [← Heap.write_comm hne]
      exact .micro (.write (f := f.setObject o' v') hat howned)
  | @read c o hat howned =>
    refine ⟨_, .of_heap hat nofun (fun o' _ hchange => absurd hchange (f.heap.not_changes_self o'))
      (fun mp => .micro (.read (f := { f with memoryPool := mp }) hat howned))
      fun o' _ hquiet v' => ?_⟩
    have hne : o' ≠ o := by
      rintro rfl
      exact hquiet false (.read hat howned)
    rw [← Heap.read_write_of_ne hne v']
    exact .micro (.read (f := f.setObject o' v') hat howned)

theorem Throw.touches (h : Throw f g) : ∃ c, Touches f none g c := by
  cases h with
  | create hat => exact ⟨_, .of_quiet hat nofun fun _ _ => .throw (.create hat)⟩
  | acquireLock hat => exact ⟨_, .of_quiet hat nofun fun _ _ => .throw (.acquireLock hat)⟩
  | acquireMake hat => exact ⟨_, .of_quiet hat nofun fun _ _ => .throw (.acquireMake hat)⟩
  | releaseLock hat => exact ⟨_, .of_quiet hat nofun fun _ _ => .throw (.releaseLock hat)⟩
  | releasePush hat => exact ⟨_, .of_quiet hat nofun fun _ _ => .throw (.releasePush hat)⟩
  | sizeLock hat => exact ⟨_, .of_quiet hat nofun fun _ _ => .throw (.sizeLock hat)⟩

theorem Exec.touches (h : Exec f l g) : ∃ c, Touches f l g c := by
  cases h with
  | micro h => exact h.touches
  | throw h => exact h.touches

end

/-! ## Objects in frames -/

omit [DecidableEq C] in
/-- Objects that wait for their destructor wait for one client only. -/
theorem Doomed.once {d e : List Obj} {fr : C → Frame T} (h : Doomed d e fr) (hd : d.Nodup) :
    e.Nodup ∧ (∀ c o, (fr c).doomed = some o → o ∈ d ∧ o ∉ e) ∧
      ∀ c c' o, (fr c).doomed = some o → (fr c').doomed = some o → c = c' := by
  obtain ⟨l, -, hl, hperm⟩ := h
  obtain ⟨he, hmap, hdisjoint⟩ := List.nodup_append'.1 (hperm.nodup_iff.1 hd)
  refine ⟨he, fun c o hc => ?_, fun c c' o hc hc' => ?_⟩
  · have hmem : o ∈ l.map Prod.snd := List.mem_map_of_mem ((hl c o).2 hc)
    exact ⟨hperm.mem_iff.2 (List.mem_append_right e hmem), fun ho => hdisjoint ho hmem⟩
  · have heq := List.inj_on_of_nodup_map hmap ((hl c o).2 hc) ((hl c' o).2 hc') rfl
    exact congrArg Prod.fst heq

/-- A client touches only objects that it owns or that wait for it to run their destructor. -/
theorem Refines.object_cases {x : Shared C T} (h : Refines f x) {c : C} {o : Obj} {w : Bool}
    (hc : Accesses f c (.object o) w) : (c, o) ∈ x.1.owned ∨ (f.frame c).doomed = some o := by
  cases hc with
  | popped hat hfront =>
    obtain ⟨-, hpool⟩ := h.inside_at hat rfl
    have hslots : f.memoryPool.pool = none :: x.1.memoryPool.pool := hpool
    rw [hslots] at hfront
    cases hfront
  | discard hat | unwind hat => exact Or.inr (by rw [hat]; rfl)
  | destroy _ howned | write _ howned | read _ howned => exact Or.inl (h.owned.mem howned)

/-! ## Whole runs -/

variable [Inhabited T] {initialSize maxSize : ℕ} {ls : List (Option (Seen C T))}

theorem custody_of_path (h : Path Exec (Locked.start C T initialSize maxSize) ls f) :
    ∃ x k, Refines f x ∧ Custody x.1 k := by
  obtain ⟨ks, x, hpath, -, hR⟩ := follows_path h
  obtain ⟨k, -, hk⟩ := custody_of_run (run_of_path hpath)
  exact ⟨x, k, hR, hk⟩

theorem eq_of_accesses (h : Path Exec (Locked.start C T initialSize maxSize) ls f) {c c' : C}
    {loc : Location} {w w' : Bool} (hc : Accesses f c loc w) (hc' : Accesses f c' loc w') : c = c' := by
  cases loc with
  | pool | maxSize => exact mutual_exclusion h (hc.critical nofun) (hc'.critical nofun)
  | object o =>
    obtain ⟨x, k, hR, hk⟩ := custody_of_path h
    obtain ⟨-, -, hunique⟩ := hR.destroyed.once hk.destroyed_nodup
    rcases hR.object_cases hc, hR.object_cases hc' with ⟨howned | hc, howned' | hc'⟩
    · exact hk.owner_unique howned howned'
    · have heq := (hk.owned_iff.1 howned).symm.trans (hR.dead hk (Or.inr ⟨c', hc'⟩))
      cases heq
    · have heq := (hk.owned_iff.1 howned').symm.trans (hR.dead hk (Or.inr ⟨c, hc⟩))
      cases heq
    · exact hunique c c' o hc hc'

/-- What a client is about to access, no other client is about to access, and whatever step is taken,
its client touches nothing but what it accesses. -/
theorem race_free (h : Path Exec (Locked.start C T initialSize maxSize) ls f) :
    (∀ c c' loc w w', c ≠ c' → Accesses f c loc w → ¬ Accesses f c' loc w') ∧
      ∀ l g, Exec f l g → ∃ c, Touches f l g c :=
  ⟨fun _ _ _ _ _ hne hc hc' => hne (eq_of_accesses h hc hc'), fun _ _ hstep => hstep.touches⟩

theorem race_free_contended :
    ¬ Accesses contended 1 .pool false ∧
      ∀ l g, Exec contended l g → ∃ c, Touches contended l g c :=
  ⟨(race_free path_contended).1 0 1 .pool true false (by decide) (.pop rfl),
    (race_free path_contended).2⟩

/-- No statement accesses an object before it is created or after its destructor, none changes an
object that is gone, and no destructor runs twice. -/
theorem memory_safe (h : Path Exec (Locked.start C T initialSize maxSize) ls f) :
    (∀ c o w, Accesses f c (.object o) w → o < f.heap.created ∧ o ∉ f.heap.destroyed) ∧
      (∀ l g, Exec f l g → ∀ o, o < f.heap.created → f.heap.Changes g.heap o →
        o ∉ f.heap.destroyed) ∧
      f.heap.destroyed.Nodup := by
  obtain ⟨x, k, hR, hk⟩ := custody_of_path h
  obtain ⟨hnodup, hdoomed, -⟩ := hR.destroyed.once hk.destroyed_nodup
  have hsafe : ∀ c o w, Accesses f c (.object o) w →
      o < f.heap.created ∧ o ∉ f.heap.destroyed := by
    intro c o w hc
    rw [← hR.created]
    rcases hR.object_cases hc with howned | hc
    · have hplace := hk.owned_iff.1 howned
      refine ⟨hk.lt_created hplace, fun ho => ?_⟩
      have heq := hplace.symm.trans (hR.dead hk (Or.inl ho))
      cases heq
    · obtain ⟨hmem, hnot⟩ := hdoomed c o hc
      exact ⟨hk.lt_created (hk.destroyed_iff.1 hmem), hnot⟩
  refine ⟨hsafe, fun l g hstep o ho hchange => ?_, hnodup⟩
  obtain ⟨c, hc⟩ := hstep.touches
  exact (hsafe c o true (hc.object o ho hchange)).2

/-- Object 0 has been destroyed, and client 1 is about to destroy object 1. -/
def destroying : Locked ℕ PacketBuffer :=
  thrown.goto 1 (.own (.destroy 1))

theorem path_destroying : Path Exec thrown [some (.call 1 (.act (.destroy 1 1)))] destroying :=
  .cons (.micro (.callOwn (a := .destroy 1) rfl)) (.nil _)

theorem memory_safe_destroying :
    (1 < destroying.heap.created ∧ 1 ∉ destroying.heap.destroyed) ∧
      (∀ l g, Exec destroying l g → ∀ o, o < destroying.heap.created →
        destroying.heap.Changes g.heap o → o ∉ destroying.heap.destroyed) ∧
      destroying.heap.destroyed.Nodup :=
  have hsafe := memory_safe ((((path_contended.append path_returning).append path_served).append
    path_thrown).append path_destroying)
  ⟨hsafe.1 1 1 true (.destroy rfl (by decide)), hsafe.2⟩

end NexusCore
