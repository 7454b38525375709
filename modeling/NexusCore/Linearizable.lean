import NexusCore.Contents
import NexusCore.Footprint
import NexusCore.Refinement

/-!
# Calls are atomic

The pool of `Mutex` is linearizable: what its clients see is what they would see of the pool of
`Exceptions`, which executes every call in one step (`linearizable`), and no program over the one can
do what it cannot do over the other (`programs_agree`).  The results about the runs of `Clients`
therefore hold of it, whatever is thrown: of the values it returns (`returned_sound`), of every state
without calls (`quiescent`), of its destruction (`shutdown`) and, for ownership, in the middle of
calls as well (`acquire_exclusive`).
-/

open Transition

namespace NexusCore

variable {C T : Type*} [DecidableEq C] {initialSize maxSize : ℕ}
  {ls : List (Option (Seen C T))} {f : Locked C T}

theorem Refines.mem_pool {x : Shared C T} (h : Refines f x) {o : Obj}
    (ho : some o ∈ f.memoryPool.pool) : some o ∈ x.1.memoryPool.pool := by
  cases hm : f.mutex with
  | none => exact h.free hm ▸ ho
  | some c =>
    have hinside := h.inside c hm
    cases hat : f.frame c with
    | acquirePop obj =>
      rw [hat] at hinside
      have hslots : f.memoryPool.pool = none :: x.1.memoryPool.pool := hinside
      rw [hslots] at ho
      simpa using ho
    | acquireMake | acquireMove | releasePush =>
      rw [hat] at hinside
      exact hinside.1 ▸ ho
    | _ =>
      rw [hat] at hinside
      have hslots : f.memoryPool.pool = x.1.memoryPool.pool := hinside
      exact hslots ▸ ho

/-- When no call is in progress, the two pools are in the same state, up to the order in which the
pointers are listed and objects were destroyed. -/
theorem Refines.idle {x : Shared C T} (hR : Refines f x) (hidle : ∀ c, f.frame c = .idle) :
    x.1.memoryPool = f.memoryPool ∧ x.1.heap.objects = f.heap.objects ∧
      x.1.heap.destroyed.Perm f.heap.destroyed ∧ x.1.owned.Perm f.owned := by
  refine ⟨?_, hR.objects, ?_, ?_⟩
  · have hfree : f.mutex = none := by
      apply Option.eq_none_iff_forall_ne_some.2
      intro c hc
      have hcritical := (hR.locks c).1 hc
      rw [hidle c] at hcritical
      cases hcritical
    have hpool := hR.free hfree
    have hmax := hR.maxSize
    cases hm : x.1.memoryPool
    cases hm' : f.memoryPool
    rw [hm, hm'] at hpool hmax
    exact congrArg₂ MemoryPool.mk hpool.symm hmax
  · obtain ⟨l, -, hl, hperm⟩ := hR.destroyed
    have hnil : l = [] := by
      apply List.eq_nil_iff_forall_not_mem.2
      rintro ⟨c, o⟩ hmem
      have hdoomed := (hl c o).1 hmem
      rw [hidle c] at hdoomed
      cases hdoomed
    rwa [hnil, List.map_nil, List.append_nil] at hperm
  · apply List.perm_iff_count.2
    rintro ⟨c, o⟩
    rw [hR.owned c o, hidle c]
    rfl

variable [Inhabited T]

variable (C T) in
theorem refines_start (initialSize maxSize : ℕ) :
    Refines (Locked.start C T initialSize maxSize)
      (start C T initialSize maxSize, fun _ => .idle) where
  locks := fun _ => iff_of_false nofun nofun
  status := rfl
  maxSize := rfl
  free := fun _ => rfl
  inside := nofun
  objects := rfl
  owned := fun _ _ => rfl
  destroyed := ⟨[], List.nodup_nil, fun _ _ => iff_of_false List.not_mem_nil nofun,
    by rw [List.map_nil, List.append_nil]; rfl⟩

theorem follows_path (h : Path Exec (Locked.start C T initialSize maxSize) ls f) :
    ∃ ks, ∃ y : Shared C T, Path (Atomic.Step Serve Reply.value)
        (start C T initialSize maxSize, fun _ => .idle) ks y ∧
      ks.filterMap Atomic.Label.visible = ls.filterMap id ∧ Refines f y :=
  Path.weak_simulate (Atomic.Step (Serve (C := C) (T := T)) Reply.value) id Atomic.Label.visible
    (fun f x => Refines f x) (fun hR hstep => follows_exec hstep hR) h
    (refines_start C T initialSize maxSize)

theorem shown_of_path (h : Path Exec (Locked.start C T initialSize maxSize) ls f) :
    ∃ ks, ∃ y : Shared C T, Path (Atomic.Step Serve Reply.value)
        (start C T initialSize maxSize, fun _ => .idle) ks y ∧
      ks.filterMap Atomic.Label.visible = ls.filterMap id := by
  obtain ⟨ks, y, hpath, hseen, -⟩ := follows_path h
  exact ⟨ks, y, hpath, hseen⟩

variable (C T) in
/-- What the clients see of the member functions and in their objects, with the exceptions thrown, they
may see of the pool that executes each call in one step. -/
theorem linearizable (initialSize maxSize : ℕ) :
    Atomic.Linearizable Exec (Locked.start C T initialSize maxSize) Serve Reply.value
      (start C T initialSize maxSize) := by
  intro ls f h
  exact shown_of_path h

/-- Whatever program the clients run, with threads and memory of its own, it does nothing with the
member functions and the objects that it cannot do with the atomic pool: it makes the same steps, and
ends in the same state. -/
theorem programs_agree {γ κ : Type*} {prog : γ → κ → γ → Prop}
    {see : κ → Option (Seen C T)} {p q : γ}
    {es : List (Option (Option (Seen C T)) × Option κ)}
    (hrun : Path (Sync Exec id prog see) (Locked.start C T initialSize maxSize, p) es (f, q)) :
    ∃ es' y, Path (Sync (Atomic.Step Serve Reply.value) Atomic.Label.visible prog see)
        ((start C T initialSize maxSize, fun _ => .idle), p) es' (y, q) ∧
      es'.filterMap Prod.snd = es.filterMap Prod.snd :=
  Atomic.Linearizable.program (fun _ _ h => shown_of_path h) hrun

/-- What the clients see on the way to `served`. -/
def script : List (Seen ℕ PacketBuffer) :=
  [.call 1 (.act (.acquire 1)), .call 0 (.act (.acquire 0)), .ret 0 (.pointer (some 0)),
    .ret 1 (.pointer (some 1)), .call 0 (.read 0 0), .ret 0 (.contents (some []))]

/-- A program that goes through the events of a list. -/
inductive Recite {γ : Type*} : List γ → γ → List γ → Prop
  | next (e : γ) (es : List γ) : Recite (e :: es) e es

theorem programs_agree_script : ∃ es es' y,
    Path (Sync Exec id Recite some) (Locked.start ℕ PacketBuffer 1 1, script) es (served, []) ∧
    Path (Sync (Atomic.Step Serve Reply.value) Atomic.Label.visible Recite some)
      ((start ℕ PacketBuffer 1 1, fun _ => .idle), script) es' (y, []) ∧
    es'.filterMap Prod.snd = es.filterMap Prod.snd := by
  have hscript : Path Recite script script [] :=
    .cons (.next _ _) (.cons (.next _ _) (.cons (.next _ _) (.cons (.next _ _)
      (.cons (.next _ _) (.cons (.next _ _) (.nil _))))))
  obtain ⟨es, hes, -⟩ : ∃ es, Path (Sync Exec id Recite some)
      (Locked.start ℕ PacketBuffer 1 1, script) es (served, []) ∧ _ :=
    Sync.of_paths (((path_contended.append path_returning).append path_served).append path_looked)
      hscript rfl
  obtain ⟨es', y, hes', hsame⟩ := programs_agree hes
  exact ⟨es, es', y, hes, hes', hsame⟩

/-- When no call is in progress, the state is one that the same calls lead to when each is executed in
one step, and that a run of `Clients` reaches, up to the order in which the pointers are listed and
objects were destroyed. -/
theorem quiescent (h : Path Exec (Locked.start C T initialSize maxSize) ls f)
    (hidle : ∀ c, f.frame c = .idle) :
    ∃ ks, ∃ s : State C T, Path (Atomic.Step Serve Reply.value)
        (start C T initialSize maxSize, fun _ => .idle) ks (s, fun _ => .idle) ∧
      ks.filterMap Atomic.Label.visible = ls.filterMap id ∧ Run initialSize maxSize (runOf ks) s ∧
      s.memoryPool = f.memoryPool ∧ s.heap.objects = f.heap.objects ∧
      s.heap.destroyed.Perm f.heap.destroyed ∧ s.owned.Perm f.owned := by
  obtain ⟨ks, ⟨s, st⟩, hpath, hseen, hR⟩ := follows_path h
  obtain rfl : st = fun _ => .idle := by
    funext c
    exact hR.status_at (hidle c)
  exact ⟨ks, s, hpath, hseen, run_of_path hpath, hR.idle hidle⟩

theorem quiescent_served :
    ∃ ks, ∃ s : State ℕ PacketBuffer, Path (Atomic.Step Serve Reply.value)
        (start ℕ PacketBuffer 1 1, fun _ => .idle) ks (s, fun _ => .idle) ∧
      ks.filterMap Atomic.Label.visible = script ∧ Run 1 1 (runOf ks) s ∧
      s.memoryPool = served.memoryPool ∧ s.heap.objects = served.heap.objects ∧
      s.heap.destroyed.Perm served.heap.destroyed ∧ s.owned.Perm served.owned :=
  quiescent (((path_contended.append path_returning).append path_served).append path_looked)
    fun _ => rfl

/-- When the pool is destroyed and no call is in progress, nothing leaks and nothing is destroyed
twice: every object created is then owned by one client, or destroyed once. -/
theorem shutdown (h : Path Exec (Locked.start C T initialSize maxSize) ls f)
    (hidle : ∀ c, f.frame c = .idle) (o : Obj) (ho : o < f.heap.created) :
    (∃ c, (∀ c', f.owned.count (c', o) = if c' = c then 1 else 0) ∧
      o ∉ (f.memoryPool.destruct f.heap).destroyed) ∨
    (∀ c, (c, o) ∉ f.owned) ∧ (f.memoryPool.destruct f.heap).destroyed.count o = 1 := by
  obtain ⟨ks, ⟨s, st⟩, hpath, -, hR⟩ := follows_path h
  have hrun := run_of_path hpath
  obtain ⟨hpool, -, hdestroyed, howned⟩ := hR.idle hidle
  have hend : (s.memoryPool.destruct s.heap).destroyed.Perm
      (f.memoryPool.destruct f.heap).destroyed := by
    rw [MemoryPool.destruct_eq, MemoryPool.destruct_eq, hpool]
    exact hdestroyed.append_right _
  rcases destruct_of_run hrun o (hR.created ▸ ho) with ⟨c, hcount, halive⟩ | ⟨hfree, hcount⟩
  · refine Or.inl ⟨c, fun c' => ?_, mt hend.mem_iff.2 halive⟩
    rw [← howned.count_eq]
    exact hcount c'
  · refine Or.inr ⟨fun c => mt howned.mem_iff.2 (hfree c), ?_⟩
    rw [← hend.count_eq]
    exact hcount

theorem shutdown_restocked :
    (∃ c, (∀ c', restocked.owned.count (c', 1) = if c' = c then 1 else 0) ∧
      1 ∉ (restocked.memoryPool.destruct restocked.heap).destroyed) ∨
    (∀ c, (c, 1) ∉ restocked.owned) ∧
      (restocked.memoryPool.destruct restocked.heap).destroyed.count 1 = 1 :=
  shutdown ((((path_contended.append path_returning).append path_served).append path_thrown).append
    path_restocked) (fun _ => rfl) 1 (by decide)

/-- The values that calls return: no pointer is null, `GetPoolSize` never reports more objects than the
larger of `initial_size` and `max_size`, and who reads an object finds something. -/
def Value.Sound (initialSize maxSize : ℕ) : Value T → Prop
  | .pointer p => p ≠ none
  | .size n => n ≤ max initialSize maxSize
  | .contents v => v ≠ none
  | .unit | .thrown _ => True

theorem sound_of_run {tr : List (Event C T)} {s t : State C T} {e : Event C T}
    (hrun : Run initialSize maxSize tr s) (hmove : Move s e t) :
    e.2.value.Sound initialSize maxSize := by
  cases hmove with
  | @recycle c p q hpool =>
    obtain ⟨k, -, hk⟩ := custody_of_run hrun
    rintro rfl
    exact hk.noNull (hpool ▸ List.mem_cons_self)
  | report => exact size_le_of_run hrun
  | allocate | create => exact nofun
  | _ => trivial

theorem sound_of_serve {tr : List (Request C T × Reply T)} {s : State C T}
    (h : Path Serve (start C T initialSize maxSize) tr s) :
    ∀ e ∈ tr, e.2.value.Sound initialSize maxSize := by
  refine Path.history (I := fun tr (_ : State C T) =>
    ∀ e ∈ tr, e.2.value.Sound initialSize maxSize) ?_ ?_ h
  · exact fun _ he => absurd he List.not_mem_nil
  · intro tr s e t hpre ih hstep
    refine List.forall_mem_append.2 ⟨ih, List.forall_mem_singleton.2 ?_⟩
    have hrun : Run initialSize maxSize ((tr.filterMap acted).filterMap settled) s :=
      settled_run (acted_run hpre)
    cases hstep with
    | act hstep =>
      rcases tryStep_cases hstep with ⟨r, rfl, hok⟩ | ⟨e, rfl, -⟩ | ⟨e, c, o, rfl, -⟩
      · exact sound_of_run hrun (step_iff_move.1 hok)
      · trivial
      · trivial
    | read howned =>
      obtain ⟨k, -, hk⟩ := custody_of_run hrun
      have hlt := hk.lt_created (hk.owned_iff.1 howned)
      show s.heap.read (some _) ≠ none
      rw [Heap.read_of_lt hlt]
      exact nofun

/-- An `Acquire` that is about to return has an object that no other client can reach, that is in no
slot of `pool_`, and that was not destroyed. -/
theorem acquire_exclusive (h : Path Exec (Locked.start C T initialSize maxSize) ls f) {c : C}
    {p : UniquePtr} (hat : f.frame c = .acquireReturn p) :
    ∃ o, p = some o ∧ some o ∉ f.memoryPool.pool ∧ o ∉ f.heap.destroyed ∧
      ∀ c', (c', o) ∉ f.owned ∧ (c' ≠ c → (f.frame c').pointer ≠ some o) := by
  obtain ⟨ks, ⟨s, st⟩, hpath, -, hR⟩ := follows_path h
  have hne : p ≠ none := by
    obtain ⟨e, he, hvalue⟩ := Atomic.committed_of_answered hpath rfl (hR.status_at hat)
    have hserve : Path Serve (start C T initialSize maxSize) _ s := Atomic.committed_path hpath
    have hsound := sound_of_serve hserve e he
    rwa [hvalue] at hsound
  obtain ⟨o, rfl⟩ := Option.ne_none_iff_exists'.1 hne
  obtain ⟨k, -, hk⟩ := custody_of_run (run_of_path hpath)
  have howner : k o = some (.client c) := hk.owned_iff.1 (hR.mem_owned hat rfl)
  have halive : k o ≠ some .destroyed := by
    rw [howner]
    exact nofun
  refine ⟨o, rfl, fun hpool => ?_, fun hmem => halive (hR.dead hk (Or.inl hmem)), fun c' => ?_⟩
  · have hpooled := hk.pooled_iff.1 (hR.mem_pool hpool)
    rw [howner] at hpooled
    cases hpooled
  · have hcount := (hR.owned c' o).symm.trans (hk.agrees.at_place howner (.client c'))
    by_cases hc : c' = c
    · subst hc
      rw [hat, if_pos rfl] at hcount
      refine ⟨fun hmem => ?_, fun hne => absurd rfl hne⟩
      have hpos := List.count_pos_iff.2 hmem
      simp [Frame.carried] at hcount
      omega
    · rw [if_neg (by simpa using hc)] at hcount
      refine ⟨fun hmem => ?_, fun _ hpointer => ?_⟩
      · have hpos := List.count_pos_iff.2 hmem
        omega
      · rcases Frame.pointer_cases hpointer with hcarried | hdoomed
        · rw [hcarried] at hcount
          simp at hcount
        · exact halive (hR.dead hk (Or.inr ⟨c', hdoomed⟩))

theorem acquire_exclusive_returning :
    ∃ o, some 0 = some o ∧ some o ∉ returning.memoryPool.pool ∧ o ∉ returning.heap.destroyed ∧
      ∀ c', (c', o) ∉ returning.owned ∧ (c' ≠ 0 → (returning.frame c').pointer ≠ some o) :=
  acquire_exclusive (path_contended.append path_returning) rfl

end NexusCore
