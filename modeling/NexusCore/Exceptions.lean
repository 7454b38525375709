import NexusCore.Custody

/-!
# Calls that throw

`std::make_unique<T>()` throws when there is no memory or `T()` throws, `std::queue::push` when the
queue cannot grow, in which case it has no effect and its argument is not moved from, and locking a
`std::mutex` may throw as well.  Whatever is thrown leaves the member function; on the way out the
lock guard is destroyed, and a parameter with the object it still points to.

A call that throws has the effect of another action, or none: the object passed to a `Release` that
throws is destroyed, and apart from that nothing changes.  So a run in which calls throw is a run in
which none does (`exception_safe`), and what holds of the latter holds of the former.  A constructor
that throws leaves nothing behind (`construct_all_or_nothing`).
-/

open Transition

namespace NexusCore

variable {C T : Type*}

/-- The operations that may throw. -/
inductive Fault where
  /-- `std::lock_guard<std::mutex> lock(mutex_);` -/
  | lock
  /-- `std::make_unique<T>()` -/
  | make
  /-- `pool_.push(…)` -/
  | push
  deriving DecidableEq

/-! ## The member functions -/

namespace MemoryPool

section

variable [Inhabited T]

/-- The loop of the constructor with `n` rounds left, where `x n f` says whether `f` throws in that
round.  When `push` throws, the pointer passed to it is destroyed. -/
def tryFill (x : ℕ → Fault → Bool) : ℕ → Queue → Heap T → Except Fault Unit × Queue × Heap T
  | 0, q, h => (.ok (), q, h)
  | n + 1, q, h =>
    if x n .make then (.error .make, q, h)
    else
      let (p, h) := h.makeUnique
      if x n .push then (.error .push, q, h.destruct p) else tryFill x n (q.push p) h

/-- The constructor.  When its body throws, the members are destroyed. -/
def tryConstruct (x : ℕ → Fault → Bool) (h : Heap T) (initialSize maxSize : ℕ) :
    Except Fault MemoryPool × Heap T :=
  match tryFill x initialSize [] h with
  | (.ok _, pool, h) => (.ok ⟨pool, maxSize⟩, h)
  | (.error e, pool, h) => (.error e, destruct ⟨pool, maxSize⟩ h)

def tryAcquire (x : Fault → Bool) (m : MemoryPool) (h : Heap T) :
    Except Fault UniquePtr × MemoryPool × Heap T :=
  if x .lock then (.error .lock, m, h)
  else if m.pool.isEmpty then
    if x .make then (.error .make, m, h)
    else
      let (p, h) := h.makeUnique
      (.ok p, m, h)
  else
    let (obj, q) := m.pool.moveFront
    let (q, h) := q.pop h
    (.ok obj, { m with pool := q }, h)

end

def tryRelease (x : Fault → Bool) (m : MemoryPool) (obj : UniquePtr) (h : Heap T) :
    Except Fault Unit × MemoryPool × Heap T :=
  if obj.isNone then (.ok (), m, h.destruct obj)
  else if x .lock then (.error .lock, m, h.destruct obj)
  else if m.pool.length < m.maxSize then
    if x .push then (.error .push, m, h.destruct obj)
    else
      let (p, obj) := obj.move
      (.ok (), { m with pool := m.pool.push p }, h.destruct obj)
  else (.ok (), m, h.destruct obj)

def tryGetPoolSize (x : Fault → Bool) (m : MemoryPool) : Except Fault ℕ :=
  if x .lock then .error .lock else .ok m.getPoolSize

/-- `Acquire` does all or nothing. -/
theorem tryAcquire_cases [Inhabited T] (x : Fault → Bool) (m : MemoryPool) (h : Heap T) :
    m.tryAcquire x h = (.ok (m.acquire h).1, (m.acquire h).2) ∨
      ∃ e, m.tryAcquire x h = (.error e, m, h) := by
  unfold tryAcquire
  by_cases hlock : x .lock = true
  · rw [if_pos hlock]
    exact Or.inr ⟨_, rfl⟩
  · rw [if_neg hlock]
    unfold acquire
    split_ifs
    · exact Or.inr ⟨_, rfl⟩
    · exact Or.inl rfl
    · exact Or.inl rfl

/-- `Release` does all, or throws and destroys its argument. -/
theorem tryRelease_cases (x : Fault → Bool) (m : MemoryPool) (obj : UniquePtr) (h : Heap T) :
    m.tryRelease x obj h = (.ok (), m.release obj h) ∨
      ∃ o e, obj = some o ∧ m.tryRelease x obj h = (.error e, m, h.destruct (some o)) := by
  cases obj with
  | none => exact Or.inl rfl
  | some o =>
    unfold tryRelease
    simp only [Option.isNone_some, Bool.false_eq_true, if_false]
    by_cases hlock : x .lock = true
    · rw [if_pos hlock]
      exact Or.inr ⟨o, _, rfl, rfl⟩
    · rw [if_neg hlock]
      unfold release
      simp only [Option.isNone_some, Bool.false_eq_true, if_false]
      split_ifs
      · exact Or.inr ⟨o, _, rfl, rfl⟩
      · exact Or.inl rfl
      · exact Or.inl rfl

section

variable [Inhabited T]

theorem tryFill_ok {x : ℕ → Fault → Bool} {n : ℕ} {q q' : Queue} {h h' : Heap T}
    (hfill : tryFill x n q h = (.ok (), q', h')) :
    (∀ i < n, ∀ e, e ≠ .lock → x i e = false) ∧ fill n q h = (q', h') := by
  induction n generalizing q h with
  | zero =>
    cases hfill
    exact ⟨nofun, rfl⟩
  | succ n ih =>
    simp only [tryFill] at hfill
    split_ifs at hfill with hmake hpush
    · cases hfill
    · cases hfill
    · obtain ⟨hrest, heq⟩ := ih hfill
      refine ⟨fun i hi e he => ?_, heq⟩
      by_cases hin : i = n
      · subst hin
        cases e with
        | lock => exact absurd rfl he
        | make => exact Bool.eq_false_iff.2 hmake
        | push => exact Bool.eq_false_iff.2 hpush
      · exact hrest i (by omega) e he

/-- When the loop throws, what it throws was thrown in one of its rounds, and the objects created are
in the queue, but for one that may have been destroyed. -/
theorem tryFill_error {x : ℕ → Fault → Bool} {e : Fault} {n : ℕ} {q q' : Queue} {h h' : Heap T}
    (hfill : tryFill x n q h = (.error e, q', h')) :
    (∃ i < n, e ≠ .lock ∧ x i e = true) ∧ ∃ kept, ∃ lost : List Obj, kept + lost.length ≤ n ∧
      q' = q ++ (List.range' h.created kept).map some ∧
      h'.objects = h.objects ++ List.replicate (kept + lost.length) default ∧
      h'.destroyed = h.destroyed ++ lost ∧
      List.range' h.created (kept + lost.length) = List.range' h.created kept ++ lost := by
  induction n generalizing q h with
  | zero => cases hfill
  | succ n ih =>
    simp only [tryFill] at hfill
    split_ifs at hfill with hmake hpush
    · cases hfill
      exact ⟨⟨n, Nat.lt_succ_self n, nofun, hmake⟩, 0, [], Nat.zero_le _, by simp⟩
    · cases hfill
      exact ⟨⟨n, Nat.lt_succ_self n, nofun, hpush⟩, 0, [h.created], by simp,
        by simp [Heap.makeUnique, Heap.destruct]⟩
    · obtain ⟨⟨i, hi, hthrows⟩, kept, lost, hle, hq, hobjects, hdestroyed, hrange⟩ := ih hfill
      rw [Heap.created_makeUnique] at hq hrange
      refine ⟨⟨i, Nat.lt_succ_of_lt hi, hthrows⟩, kept + 1, lost, by omega, ?_, ?_, hdestroyed, ?_⟩
      · rw [hq, List.range'_succ]
        simp [Queue.push, Heap.makeUnique]
      · rw [hobjects, Nat.add_right_comm, List.replicate_succ]
        simp [Heap.makeUnique]
      · rw [Nat.add_right_comm, List.range'_succ, hrange, List.range'_succ, List.cons_append]

end

end MemoryPool

/-! ## The clients -/

variable [DecidableEq C] [Inhabited T]

/-- A step of the clients when the operations `x` throw.  A client that destroys an object or writes
to it runs code of its own. -/
def State.tryStep (x : Fault → Bool) (s : State C T) :
    Action C T → Option (Except Fault (Result T) × State C T)
  | .acquire c =>
    match s.memoryPool.tryAcquire x s.heap with
    | (.ok p, pool, heap) =>
      some (.ok (.acquired p (heap.read p) s.memoryPool.getPoolSize
        (s.heap.created < heap.created)), ⟨pool, heap, s.gain c p⟩)
    | (.error e, pool, heap) => some (.error e, ⟨pool, heap, s.owned⟩)
  | .release c p =>
    if s.Owns c p then
      match s.memoryPool.tryRelease x p s.heap with
      | (.ok _, pool, heap) =>
        some (.ok (.released s.memoryPool.getPoolSize
            (s.memoryPool.getPoolSize < pool.getPoolSize)
            (s.heap.destroyed.length < heap.destroyed.length)),
          ⟨pool, heap, s.lose c p⟩)
      | (.error e, pool, heap) => some (.error e, ⟨pool, heap, s.lose c p⟩)
    else none
  | .getPoolSize _ =>
    match s.memoryPool.tryGetPoolSize x with
    | .ok n => some (.ok (.poolSize n), s)
    | .error e => some (.error e, s)
  | .create c =>
    if x .make then some (.error .make, s)
    else
      let (p, heap) := s.heap.makeUnique
      some (.ok (.created p), ⟨s.memoryPool, heap, s.gain c p⟩)
  | a => (s.step a).map fun y => (.ok y.1, y.2)

/-- A step in which operations may throw. -/
def TryStep (s : State C T) (e : Action C T × Except Fault (Result T)) (t : State C T) : Prop :=
  ∃ x, s.tryStep x e.1 = some (e.2, t)

/-- When nothing throws, a step is one of `Clients`. -/
theorem tryStep_of_step {s t : State C T} {a : Action C T} {r : Result T} (h : Step s (a, r) t) :
    TryStep s (a, .ok r) t := by
  have hok : s.tryStep (fun _ => false) a = (s.step a).map fun y => (.ok y.1, y.2) := by
    cases a with
    | acquire c =>
      simp only [State.tryStep, State.step, MemoryPool.tryAcquire, MemoryPool.acquire,
        Bool.false_eq_true, if_false]
      split_ifs <;> rfl
    | release c p =>
      simp only [State.tryStep, State.step, MemoryPool.tryRelease, MemoryPool.release,
        Bool.false_eq_true, if_false]
      split_ifs <;> rfl
    | _ => rfl
  exact ⟨fun _ => false, hok.trans (congrArg _ h)⟩

/-! A call whose lock throws, or that throws after it. -/

theorem tryStep_acquire_lock (s : State C T) (c : C) :
    TryStep s (.acquire c, .error .lock) s :=
  ⟨fun _ => true, rfl⟩

theorem tryStep_acquire_make {s : State C T} (hempty : s.memoryPool.pool = []) (c : C) :
    TryStep s (.acquire c, .error .make) s := by
  refine ⟨(· = .make), ?_⟩
  simp [State.tryStep, MemoryPool.tryAcquire, hempty]

theorem tryStep_release_lock {s : State C T} {c : C} {o : Obj} (howned : (c, o) ∈ s.owned) :
    TryStep s (.release c (some o), .error .lock)
      ⟨s.memoryPool, s.heap.destruct (some o), s.owned.erase (c, o)⟩ :=
  ⟨fun _ => true, if_pos howned⟩

theorem tryStep_release_push {s : State C T} {c : C} {o : Obj} (howned : (c, o) ∈ s.owned)
    (hroom : s.memoryPool.pool.length < s.memoryPool.maxSize) :
    TryStep s (.release c (some o), .error .push)
      ⟨s.memoryPool, s.heap.destruct (some o), s.owned.erase (c, o)⟩ := by
  refine ⟨(· = .push), (if_pos howned).trans ?_⟩
  simp [MemoryPool.tryRelease, hroom, State.lose]

theorem tryStep_size_lock (s : State C T) (c : C) :
    TryStep s (.getPoolSize c, .error .lock) s :=
  ⟨fun _ => true, rfl⟩

theorem tryStep_create_make (s : State C T) (c : C) : TryStep s (.create c, .error .make) s :=
  ⟨fun _ => true, rfl⟩

/-- A step of the clients in which nothing throws, with the effect of the given one. -/
def settled : Action C T × Except Fault (Result T) → Option (Event C T)
  | (a, .ok r) => some (a, r)
  | (.release c (some o), .error _) => some (.destroy c o, .done)
  | (_, .error _) => none

/-- A call that throws has no effect on the state, but the object passed to a `Release` is
destroyed. -/
theorem tryStep_cases {s t : State C T} {a : Action C T} {r : Except Fault (Result T)}
    (h : TryStep s (a, r) t) :
    (∃ r', r = .ok r' ∧ Step s (a, r') t) ∨
    (∃ e, r = .error e ∧ settled (a, r) = none ∧ t = s) ∨
    ∃ e c o, r = .error e ∧ a = .release c (some o) ∧ Step s (.destroy c o, .done) t := by
  obtain ⟨x, h⟩ := h
  cases a with
  | acquire c =>
    simp only [State.tryStep] at h
    rcases s.memoryPool.tryAcquire_cases x s.heap with hok | ⟨e, herror⟩
    · rw [hok] at h
      cases h
      exact Or.inl ⟨_, rfl, rfl⟩
    · rw [herror] at h
      cases h
      exact Or.inr (Or.inl ⟨e, rfl, rfl, rfl⟩)
  | release c p =>
    simp only [State.tryStep] at h
    split_ifs at h with howns
    rcases s.memoryPool.tryRelease_cases x p s.heap with hok | ⟨o, e, rfl, herror⟩
    · rw [hok] at h
      cases h
      exact Or.inl ⟨_, rfl, if_pos howns⟩
    · rw [herror] at h
      cases h
      exact Or.inr (Or.inr ⟨e, c, o, rfl, rfl, if_pos howns⟩)
  | getPoolSize c =>
    simp only [State.tryStep, MemoryPool.tryGetPoolSize] at h
    split_ifs at h
    · cases h
      exact Or.inr (Or.inl ⟨_, rfl, rfl, rfl⟩)
    · cases h
      exact Or.inl ⟨_, rfl, rfl⟩
  | create c =>
    simp only [State.tryStep] at h
    split_ifs at h
    · cases h
      exact Or.inr (Or.inl ⟨_, rfl, rfl, rfl⟩)
    · cases h
      exact Or.inl ⟨_, rfl, rfl⟩
  | destroy c o | write c o v =>
    obtain ⟨⟨r', t'⟩, hstep, heq⟩ := Option.map_eq_some_iff.1 h
    cases heq
    exact Or.inl ⟨r', rfl, hstep⟩

/-- Without the calls that throw, or with the destruction of their arguments in their place, a run
in which operations may throw is a run in which none does, and it leads to the same state. -/
theorem settled_run {initialSize maxSize : ℕ} {tr : List (Action C T × Except Fault (Result T))}
    {s : State C T} (h : Path TryStep (start C T initialSize maxSize) tr s) :
    Run initialSize maxSize (tr.filterMap settled) s := by
  obtain ⟨x, hpath, hx⟩ := Path.simulate Step settled (fun (s x : State C T) => s = x)
    (fun {s e t x} hR hstep hnone => by
      obtain ⟨a, r⟩ := e
      rcases tryStep_cases hstep with ⟨r', rfl, -⟩ | ⟨e, -, -, rfl⟩ | ⟨e, c, o, rfl, rfl, -⟩
      · cases hnone
      · exact hR
      · cases hnone)
    (fun {s e t x k} hR hstep hsome => by
      obtain ⟨a, r⟩ := e
      subst hR
      rcases tryStep_cases hstep with ⟨r', rfl, hok⟩ | ⟨e, -, hnone, -⟩ | ⟨e, c, o, rfl, rfl, hok⟩
      · cases hsome
        exact ⟨t, hok, rfl⟩
      · rw [hnone] at hsome
        cases hsome
      · cases hsome
        exact ⟨t, hok, rfl⟩)
    h rfl
  rw [hx]
  exact hpath

/-- However many calls throw, every object created is found exactly once, in a slot of the pool, with
a client or destroyed.  A call that throws leaves the pool as it was, and changes nothing at all
unless it is a `Release`, whose object is destroyed. -/
theorem exception_safe {initialSize maxSize : ℕ}
    {tr : List (Action C T × Except Fault (Result T))} {s : State C T}
    (h : Path TryStep (start C T initialSize maxSize) tr s) :
    Run initialSize maxSize (tr.filterMap settled) s ∧ none ∉ s.memoryPool.pool ∧
    (∀ o, o < s.heap.created →
      ∃ p : Place C, ∀ p', s.sightings o p' = if p' = p then 1 else 0) ∧
    ∀ a e t, TryStep s (a, .error e) t → t = s ∨
      ∃ c o, a = .release c (some o) ∧ t.memoryPool = s.memoryPool ∧
        t.heap.objects = s.heap.objects ∧
        ∀ p, t.sightings o p = if p = .destroyed then 1 else 0 := by
  have hrun := settled_run h
  obtain ⟨k, -, hk⟩ := custody_of_run hrun
  refine ⟨hrun, hk.noNull, fun o ho => ?_, fun a e t hstep => ?_⟩
  · obtain ⟨p, hp⟩ := hk.exists_place ho
    exact ⟨p, hk.agrees.at_place hp⟩
  · rcases tryStep_cases hstep with ⟨r', hr, -⟩ | ⟨e, -, -, rfl⟩ | ⟨e, c, o, -, rfl, hdestroy⟩
    · cases hr
    · exact Or.inl rfl
    · have hmove := step_iff_move.1 hdestroy
      obtain ⟨k', hentry, hk'⟩ := (custody_step hk hmove).2 _ rfl
      refine Or.inr ⟨c, o, rfl, ?_⟩
      cases hmove
      exact ⟨rfl, rfl, hk'.agrees.at_place hentry.place_move⟩

/-- The only object of the pool is acquired, the next `Acquire` throws, and so does the `Release`. -/
def throwingTrace : List (Action ℕ PacketBuffer × Except Fault (Result PacketBuffer)) :=
  [(.acquire 0, .ok (.acquired (some 0) (some []) 1 false)), (.acquire 1, .error .make),
    (.release 0 (some 0), .error .push)]

def thrownState : State ℕ PacketBuffer := ⟨⟨[], 1⟩, ⟨[[]], [0]⟩, []⟩

theorem exception_safe_thrown :
    Run 1 1 (throwingTrace.filterMap settled) thrownState ∧ none ∉ thrownState.memoryPool.pool ∧
    (∀ o, o < thrownState.heap.created →
      ∃ p : Place ℕ, ∀ p', thrownState.sightings o p' = if p' = p then 1 else 0) ∧
    ∀ a e t, TryStep thrownState (a, .error e) t → t = thrownState ∨
      ∃ c o, a = .release c (some o) ∧ t.memoryPool = thrownState.memoryPool ∧
        t.heap.objects = thrownState.heap.objects ∧
        ∀ p, t.sightings o p = if p = .destroyed then 1 else 0 :=
  exception_safe (.cons ⟨fun _ => false, rfl⟩ (.cons ⟨(· = .make), rfl⟩
    (.cons ⟨(· = .push), rfl⟩ (.nil _))))

end NexusCore
