import NexusCore.Interface

/-!
# The member functions, statement by statement

A call of a member function is a single step in `Clients` and `Exceptions`.  Here a client executes
it one statement at a time, between the statements of the others, and only `mutex_` keeps them apart;
any statement that may throw does so at any time (`Throw`).  No two clients are between the
construction and the destruction of a lock guard at the same time (`mutual_exclusion`), and a client
in a member function is never stuck (`progress`).

A client has a frame with the statement it has reached, its parameters and its locals.  The lock
guard of `Acquire` and `GetPoolSize` is destroyed after the value returned has been built; that of
`Release` before the parameter.  They are destroyed in the same order when a statement throws, and
the exception then leaves the function.
-/

open Transition

namespace NexusCore

variable {C T : Type*}

/-! ## Frames -/

/-- The statements of a client that are no calls of the pool. -/
inductive Own (T : Type*) where
  | create
  | destroy (o : Obj)
  | write (o : Obj) (v : T)
  | read (o : Obj)

def Own.request (c : C) : Own T → Request C T
  | create => .act (.create c)
  | destroy o => .act (.destroy c o)
  | write o v => .act (.write c o v)
  | read o => .read c o

/-- The next statement of a client, with the pointers in its parameters and locals. -/
inductive Frame (T : Type*) where
  | idle
  | own (a : Own T)
  /-- `std::lock_guard<std::mutex> lock(mutex_);` -/
  | acquireLock
  /-- `if (pool_.empty())` -/
  | acquireTest
  /-- `return std::make_unique<T>();` -/
  | acquireMake
  /-- `auto obj = std::move(pool_.front());` -/
  | acquireMove
  /-- `pool_.pop();` -/
  | acquirePop (obj : UniquePtr)
  /-- The lock guard is destroyed. -/
  | acquireUnlock (obj : UniquePtr)
  | acquireReturn (obj : UniquePtr)
  /-- `if (!obj) return;` -/
  | releaseTest (obj : UniquePtr)
  /-- The lock guard of `Release`; from here on `obj` is not null. -/
  | releaseLock (obj : Obj)
  /-- `if (pool_.size() < max_size_)` -/
  | releaseSize (obj : Obj)
  /-- `pool_.push(std::move(obj));` -/
  | releasePush (obj : Obj)
  | releaseUnlock (obj : UniquePtr)
  /-- The parameter is destroyed. -/
  | releaseReturn (obj : UniquePtr)
  | sizeLock
  /-- `return pool_.size();` -/
  | sizeRead
  | sizeUnlock (n : ℕ)
  /-- A statement has thrown `e`.  The lock guard is destroyed; `obj` is the parameter, and null in
  `Acquire`. -/
  | unwindUnlock (e : Fault) (obj : UniquePtr)
  /-- The parameter is destroyed. -/
  | unwindReturn (e : Fault) (obj : UniquePtr)
  | answer (v : Value T)

namespace Frame

/-- The client holds `mutex_`. -/
def critical : Frame T → Bool
  | acquireTest | acquireMake | acquireMove | acquirePop _ | acquireUnlock _ => true
  | releaseSize _ | releasePush _ | releaseUnlock _ => true
  | sizeRead | sizeUnlock _ | unwindUnlock _ _ => true
  | _ => false

end Frame

structure Locked (C T : Type*) extends State C T where
  /-- The client that holds `mutex_`. -/
  mutex : Option C
  frame : C → Frame T

variable [DecidableEq C]

/-- The client `c` goes on with `fr`. -/
def Locked.goto (f : Locked C T) (c : C) (fr : Frame T) : Locked C T :=
  { f with frame := Function.update f.frame c fr }

/-- One statement of one client.  The pointers in `owned` are those in the clients' variables; a
pointer passed to `Release` is in the parameter. -/
inductive Micro [Inhabited T] : Locked C T → Option (Seen C T) → Locked C T → Prop
  | callOwn {f : Locked C T} {c : C} {a : Own T} (hat : f.frame c = .idle) :
      Micro f (some (.call c (a.request c))) (f.goto c (.own a))
  | create {f : Locked C T} {c : C} (hat : f.frame c = .own .create) :
      Micro f none
        ({ f with heap := f.heap.makeUnique.2, owned := f.gain c f.heap.makeUnique.1 }.goto c
          (.answer (.pointer f.heap.makeUnique.1)))
  | destroy {f : Locked C T} {c : C} {o : Obj} (hat : f.frame c = .own (.destroy o))
      (howned : (c, o) ∈ f.owned) :
      Micro f none
        ({ f with heap := f.heap.destruct (some o), owned := f.lose c (some o) }.goto c
          (.answer .unit))
  | write {f : Locked C T} {c : C} {o : Obj} {v : T} (hat : f.frame c = .own (.write o v))
      (howned : (c, o) ∈ f.owned) :
      Micro f none ({ f with heap := f.heap.write o v }.goto c (.answer .unit))
  | read {f : Locked C T} {c : C} {o : Obj} (hat : f.frame c = .own (.read o))
      (howned : (c, o) ∈ f.owned) :
      Micro f none (f.goto c (.answer (.contents (f.heap.read (some o)))))
  | callAcquire {f : Locked C T} {c : C} (hat : f.frame c = .idle) :
      Micro f (some (.call c (.act (.acquire c)))) (f.goto c .acquireLock)
  | acquireLock {f : Locked C T} {c : C} (hat : f.frame c = .acquireLock) (hfree : f.mutex = none) :
      Micro f none ({ f with mutex := some c }.goto c .acquireTest)
  | acquireEmpty {f : Locked C T} {c : C} (hat : f.frame c = .acquireTest)
      (hempty : f.memoryPool.pool.isEmpty = true) : Micro f none (f.goto c .acquireMake)
  | acquireNonempty {f : Locked C T} {c : C} (hat : f.frame c = .acquireTest)
      (hempty : f.memoryPool.pool.isEmpty = false) : Micro f none (f.goto c .acquireMove)
  | acquireMake {f : Locked C T} {c : C} (hat : f.frame c = .acquireMake) :
      Micro f none
        ({ f with heap := f.heap.makeUnique.2 }.goto c (.acquireUnlock f.heap.makeUnique.1))
  | acquireMove {f : Locked C T} {c : C} (hat : f.frame c = .acquireMove) :
      Micro f none
        ({ f with memoryPool := { f.memoryPool with pool := f.memoryPool.pool.moveFront.2 } }.goto c
          (.acquirePop f.memoryPool.pool.moveFront.1))
  | acquirePop {f : Locked C T} {c : C} {obj : UniquePtr} (hat : f.frame c = .acquirePop obj) :
      Micro f none
        ({ f with
            memoryPool := { f.memoryPool with pool := (f.memoryPool.pool.pop f.heap).1 }
            heap := (f.memoryPool.pool.pop f.heap).2 }.goto c (.acquireUnlock obj))
  | acquireUnlock {f : Locked C T} {c : C} {obj : UniquePtr}
      (hat : f.frame c = .acquireUnlock obj) :
      Micro f none ({ f with mutex := none }.goto c (.acquireReturn obj))
  | acquireReturn {f : Locked C T} {c : C} {obj : UniquePtr}
      (hat : f.frame c = .acquireReturn obj) :
      Micro f (some (.ret c (.pointer obj))) ({ f with owned := f.gain c obj }.goto c .idle)
  | callRelease {f : Locked C T} {c : C} {obj : UniquePtr} (hat : f.frame c = .idle)
      (howns : f.Owns c obj) :
      Micro f (some (.call c (.act (.release c obj))))
        ({ f with owned := f.lose c obj }.goto c (.releaseTest obj))
  | releaseNull {f : Locked C T} {c : C} (hat : f.frame c = .releaseTest none) :
      Micro f none (f.goto c (.releaseReturn none))
  | releaseNonnull {f : Locked C T} {c : C} {obj : Obj}
      (hat : f.frame c = .releaseTest (some obj)) : Micro f none (f.goto c (.releaseLock obj))
  | releaseLock {f : Locked C T} {c : C} {obj : Obj} (hat : f.frame c = .releaseLock obj)
      (hfree : f.mutex = none) :
      Micro f none ({ f with mutex := some c }.goto c (.releaseSize obj))
  | releaseRoom {f : Locked C T} {c : C} {obj : Obj} (hat : f.frame c = .releaseSize obj)
      (hroom : f.memoryPool.pool.length < f.memoryPool.maxSize) :
      Micro f none (f.goto c (.releasePush obj))
  | releaseFull {f : Locked C T} {c : C} {obj : Obj} (hat : f.frame c = .releaseSize obj)
      (hfull : ¬ f.memoryPool.pool.length < f.memoryPool.maxSize) :
      Micro f none (f.goto c (.releaseUnlock (some obj)))
  | releasePush {f : Locked C T} {c : C} {obj : Obj} (hat : f.frame c = .releasePush obj) :
      Micro f none
        ({ f with
            memoryPool := { f.memoryPool with
              pool := f.memoryPool.pool.push (UniquePtr.move (some obj)).1 } }.goto c
          (.releaseUnlock (UniquePtr.move (some obj)).2))
  | releaseUnlock {f : Locked C T} {c : C} {obj : UniquePtr}
      (hat : f.frame c = .releaseUnlock obj) :
      Micro f none ({ f with mutex := none }.goto c (.releaseReturn obj))
  | releaseReturn {f : Locked C T} {c : C} {obj : UniquePtr}
      (hat : f.frame c = .releaseReturn obj) :
      Micro f none ({ f with heap := f.heap.destruct obj }.goto c (.answer .unit))
  | callSize {f : Locked C T} {c : C} (hat : f.frame c = .idle) :
      Micro f (some (.call c (.act (.getPoolSize c)))) (f.goto c .sizeLock)
  | sizeLock {f : Locked C T} {c : C} (hat : f.frame c = .sizeLock) (hfree : f.mutex = none) :
      Micro f none ({ f with mutex := some c }.goto c .sizeRead)
  | sizeRead {f : Locked C T} {c : C} (hat : f.frame c = .sizeRead) :
      Micro f none (f.goto c (.sizeUnlock f.memoryPool.getPoolSize))
  | sizeUnlock {f : Locked C T} {c : C} {n : ℕ} (hat : f.frame c = .sizeUnlock n) :
      Micro f none ({ f with mutex := none }.goto c (.answer (.size n)))
  | unwindUnlock {f : Locked C T} {c : C} {e : Fault} {obj : UniquePtr}
      (hat : f.frame c = .unwindUnlock e obj) :
      Micro f none ({ f with mutex := none }.goto c (.unwindReturn e obj))
  | unwindReturn {f : Locked C T} {c : C} {e : Fault} {obj : UniquePtr}
      (hat : f.frame c = .unwindReturn e obj) :
      Micro f none ({ f with heap := f.heap.destruct obj }.goto c (.answer (.thrown e)))
  | answer {f : Locked C T} {c : C} {v : Value T} (hat : f.frame c = .answer v) :
      Micro f (some (.ret c v)) (f.goto c .idle)

/-- The next statement of a client throws. -/
inductive Throw : Locked C T → Locked C T → Prop
  | create {f : Locked C T} {c : C} (hat : f.frame c = .own .create) :
      Throw f (f.goto c (.answer (.thrown .make)))
  | acquireLock {f : Locked C T} {c : C} (hat : f.frame c = .acquireLock) :
      Throw f (f.goto c (.answer (.thrown .lock)))
  | acquireMake {f : Locked C T} {c : C} (hat : f.frame c = .acquireMake) :
      Throw f (f.goto c (.unwindUnlock .make none))
  | releaseLock {f : Locked C T} {c : C} {obj : Obj} (hat : f.frame c = .releaseLock obj) :
      Throw f (f.goto c (.unwindReturn .lock (some obj)))
  | releasePush {f : Locked C T} {c : C} {obj : Obj} (hat : f.frame c = .releasePush obj) :
      Throw f (f.goto c (.unwindUnlock .push (some obj)))
  | sizeLock {f : Locked C T} {c : C} (hat : f.frame c = .sizeLock) :
      Throw f (f.goto c (.answer (.thrown .lock)))

/-- A client executes its next statement, or the statement throws. -/
inductive Exec [Inhabited T] : Locked C T → Option (Seen C T) → Locked C T → Prop
  | micro {f g : Locked C T} {l : Option (Seen C T)} (h : Micro f l g) : Exec f l g
  | throw {f g : Locked C T} (h : Throw f g) : Exec f none g

/-- No call has been made. -/
def Locked.start (C T : Type*) [Inhabited T] (initialSize maxSize : ℕ) : Locked C T :=
  ⟨NexusCore.start C T initialSize maxSize, none, fun _ => .idle⟩

/-! ## The lock -/

/-- The holder of the lock is the client in a critical section. -/
def Locks (m : Option C) (fr : C → Frame T) : Prop := ∀ c, m = some c ↔ (fr c).critical = true

section

variable {m : Option C} {fr : C → Frame T} {c : C} {k₀ k : Frame T}

theorem Locks.keep (h : Locks m fr) (hat : fr c = k₀) (hk : k.critical = k₀.critical) :
    Locks m (Function.update fr c k) := by
  refine (Function.forall_update_iff fr fun c' k => m = some c' ↔ k.critical = true).2
    ⟨?_, fun c' _ => h c'⟩
  rw [hk, ← hat]
  exact h c

theorem Locks.take (h : Locks none fr) (hk : k.critical = true) :
    Locks (some c) (Function.update fr c k) := by
  refine (Function.forall_update_iff fr fun c' k => some c = some c' ↔ k.critical = true).2
    ⟨iff_of_true rfl hk, fun c' hc => ?_⟩
  rw [← h c']
  exact iff_of_false (fun heq => hc (Option.some.inj heq).symm) nofun

theorem Locks.drop (h : Locks m fr) (hat : fr c = k₀) (hc : k₀.critical = true)
    (hk : k.critical = false) : Locks none (Function.update fr c k) := by
  have hholder : m = some c := (h c).2 (hat ▸ hc)
  refine (Function.forall_update_iff fr fun c' k => none = some c' ↔ k.critical = true).2
    ⟨iff_of_false nofun (by rw [hk]; nofun), fun c' hc' => ?_⟩
  rw [← h c', hholder]
  exact iff_of_false nofun fun heq => hc' (Option.some.inj heq).symm

end

variable [Inhabited T] {f g : Locked C T} {l : Option (Seen C T)}

theorem locks_micro (h : Micro f l g) (hlocks : Locks f.mutex f.frame) :
    Locks g.mutex g.frame := by
  cases h with
  | acquireLock _ hfree | releaseLock _ hfree | sizeLock _ hfree =>
    exact Locks.take (hfree ▸ hlocks) rfl
  | acquireUnlock hat | releaseUnlock hat | sizeUnlock hat | unwindUnlock hat =>
    exact hlocks.drop hat rfl rfl
  | callOwn hat | create hat | destroy hat | write hat | read hat | callAcquire hat
  | acquireEmpty hat | acquireNonempty hat | acquireMake hat | acquireMove hat | acquirePop hat
  | acquireReturn hat | callRelease hat | releaseNull hat | releaseNonnull hat | releaseRoom hat
  | releaseFull hat | releasePush hat | releaseReturn hat | callSize hat | sizeRead hat
  | unwindReturn hat | answer hat =>
    exact hlocks.keep hat rfl

omit [Inhabited T] in
theorem locks_throw (h : Throw f g) (hlocks : Locks f.mutex f.frame) : Locks g.mutex g.frame := by
  cases h with
  | create hat | acquireLock hat | acquireMake hat | releaseLock hat | releasePush hat
  | sizeLock hat => exact hlocks.keep hat rfl

theorem locks_of_path {initialSize maxSize : ℕ}
    {ls : List (Option (Seen C T))}
    (h : Path Exec (Locked.start C T initialSize maxSize) ls f) : Locks f.mutex f.frame := by
  refine Path.history (I := fun _ (f : Locked C T) => Locks f.mutex f.frame) ?_ ?_ h
  · exact fun c => iff_of_false nofun nofun
  · intro ls f l g _ ih hstep
    cases hstep with
    | micro h => exact locks_micro h ih
    | throw h => exact locks_throw h ih

/-- At most one client is in a critical section. -/
theorem mutual_exclusion {initialSize maxSize : ℕ}
    {ls : List (Option (Seen C T))}
    (h : Path Exec (Locked.start C T initialSize maxSize) ls f) {c c' : C}
    (hc : (f.frame c).critical = true) (hc' : (f.frame c').critical = true) : c = c' := by
  have hlocks := locks_of_path h
  have hholder := (hlocks c).2 hc
  rw [(hlocks c').2 hc'] at hholder
  exact (Option.some.inj hholder).symm

/-- The client in the critical section can go on. -/
theorem micro_of_critical {c : C} (hc : (f.frame c).critical = true) : ∃ g, Micro f none g := by
  cases hat : f.frame c with
  | acquireTest =>
    cases hempty : f.memoryPool.pool.isEmpty with
    | true => exact ⟨_, .acquireEmpty hat hempty⟩
    | false => exact ⟨_, .acquireNonempty hat hempty⟩
  | acquireMake => exact ⟨_, .acquireMake hat⟩
  | acquireMove => exact ⟨_, .acquireMove hat⟩
  | acquirePop => exact ⟨_, .acquirePop hat⟩
  | acquireUnlock => exact ⟨_, .acquireUnlock hat⟩
  | releaseSize =>
    by_cases hroom : f.memoryPool.pool.length < f.memoryPool.maxSize
    · exact ⟨_, .releaseRoom hat hroom⟩
    · exact ⟨_, .releaseFull hat hroom⟩
  | releasePush => exact ⟨_, .releasePush hat⟩
  | releaseUnlock => exact ⟨_, .releaseUnlock hat⟩
  | sizeRead => exact ⟨_, .sizeRead hat⟩
  | sizeUnlock => exact ⟨_, .sizeUnlock hat⟩
  | unwindUnlock => exact ⟨_, .unwindUnlock hat⟩
  | _ =>
    rw [hat] at hc
    cases hc

/-- The client has called a member function that has not returned. -/
def Frame.inCall : Frame T → Bool
  | idle => false
  | own _ => false
  | _ => true

/-- While a member function has not returned, some client can go on without a new call. -/
theorem progress {initialSize maxSize : ℕ}
    {ls : List (Option (Seen C T))}
    (h : Path Exec (Locked.start C T initialSize maxSize) ls f) {c : C}
    (hc : (f.frame c).inCall = true) : ∃ l g, Micro f l g ∧ ∀ c' a, l ≠ some (.call c' a) := by
  cases hholder : f.mutex with
  | some c' =>
    obtain ⟨g, hg⟩ := micro_of_critical ((locks_of_path h c').1 hholder)
    exact ⟨none, g, hg, nofun⟩
  | none =>
    by_cases hcritical : (f.frame c).critical = true
    · obtain ⟨g, hg⟩ := micro_of_critical hcritical
      exact ⟨none, g, hg, nofun⟩
    · cases hat : f.frame c with
      | acquireLock => exact ⟨_, _, .acquireLock hat hholder, nofun⟩
      | acquireReturn => exact ⟨_, _, .acquireReturn hat, nofun⟩
      | releaseTest obj =>
        cases obj with
        | none => exact ⟨_, _, .releaseNull hat, nofun⟩
        | some o => exact ⟨_, _, .releaseNonnull hat, nofun⟩
      | releaseLock => exact ⟨_, _, .releaseLock hat hholder, nofun⟩
      | releaseReturn => exact ⟨_, _, .releaseReturn hat, nofun⟩
      | sizeLock => exact ⟨_, _, .sizeLock hat hholder, nofun⟩
      | unwindReturn => exact ⟨_, _, .unwindReturn hat, nofun⟩
      | answer => exact ⟨_, _, .answer hat, nofun⟩
      | idle | own =>
        rw [hat] at hc
        cases hc
      | _ =>
        rw [hat] at hcritical
        exact absurd rfl hcritical

/-! ## A concrete run -/

/-- Client 1 waits for the lock, and client 0 has taken the only object out of the pool. -/
def contendedCalls : List (Option (Seen ℕ PacketBuffer)) :=
  [some (.call 1 (.act (.acquire 1))), some (.call 0 (.act (.acquire 0))), none, none, none]

def contended : Locked ℕ PacketBuffer :=
  ⟨⟨⟨[none], 1⟩, ⟨[[]], []⟩, []⟩, some 0,
    Function.update (Function.update (fun _ => .idle) 1 .acquireLock) 0 (.acquirePop (some 0))⟩

theorem path_contended :
    Path Exec (Locked.start ℕ PacketBuffer 1 1) contendedCalls contended := by
  apply Path.mono Exec.micro
  refine .cons (.callAcquire rfl) (.cons (.callAcquire rfl) (.cons (.acquireLock (c := 0) rfl rfl)
    (.cons (.acquireNonempty (c := 0) rfl rfl) (.cons (.acquireMove (c := 0) rfl) ?_))))
  rw [Path.nil_iff]
  simp [Locked.goto, Locked.start, start_eq, Queue.moveFront, UniquePtr.move, contended]
  rfl

/-- Client 0 has released the lock and is about to return. -/
def returning : Locked ℕ PacketBuffer :=
  ⟨⟨⟨[], 1⟩, ⟨[[]], []⟩, []⟩, none,
    Function.update (Function.update (fun _ => .idle) 1 .acquireLock) 0 (.acquireReturn (some 0))⟩

theorem path_returning : Path Exec contended [none, none] returning := by
  apply Path.mono Exec.micro
  refine .cons (.acquirePop (c := 0) rfl) (.cons (.acquireUnlock (c := 0) rfl) ?_)
  rw [Path.nil_iff]
  simp [Locked.goto, Queue.pop, contended, returning]

/-- Both clients have an object. -/
def served : Locked ℕ PacketBuffer :=
  ⟨⟨⟨[], 1⟩, ⟨[[], []], []⟩, [(0, 0), (1, 1)]⟩, none, fun _ => .idle⟩

theorem path_served :
    Path Exec returning [some (.ret 0 (.pointer (some 0))), none, none, none, none,
      some (.ret 1 (.pointer (some 1)))] served := by
  apply Path.mono Exec.micro
  refine .cons (.acquireReturn (c := 0) rfl) (.cons (.acquireLock (c := 1) rfl rfl)
    (.cons (.acquireEmpty (c := 1) rfl rfl) (.cons (.acquireMake (c := 1) rfl)
      (.cons (.acquireUnlock (c := 1) rfl) (.cons (.acquireReturn (c := 1) rfl) ?_)))))
  rw [Path.nil_iff]
  simp [Locked.goto, returning, served, State.gain, Heap.makeUnique, Heap.created]
  refine ⟨rfl, funext fun c => ?_⟩
  by_cases hc : c = 1 <;> by_cases hc' : c = 0 <;> simp [hc, hc']

/-- Client 0 looks into its object, and finds it as new. -/
theorem path_looked :
    Path Exec served [some (.call 0 (.read 0 0)), none, some (.ret 0 (.contents (some [])))] served := by
  apply Path.mono Exec.micro
  refine .cons (.callOwn (a := .read 0) rfl) (.cons (.read (c := 0) rfl (by decide))
    (.cons (.answer (c := 0) rfl) ?_))
  rw [Path.nil_iff]
  simp [Locked.goto, served]

/-- The `Release` of client 0 has thrown. -/
def thrown : Locked ℕ PacketBuffer :=
  ⟨⟨⟨[], 1⟩, ⟨[[], []], [0]⟩, [(1, 1)]⟩, none, fun _ => .idle⟩

theorem path_thrown :
    Path Exec served [some (.call 0 (.act (.release 0 (some 0)))), none, none, none, none, none, none,
      some (.ret 0 (.thrown .push))] thrown := by
  refine .cons (.micro (.callRelease rfl (show (0, 0) ∈ served.owned by decide)))
    (.cons (.micro (.releaseNonnull (c := 0) rfl)) (.cons (.micro (.releaseLock (c := 0) rfl rfl))
    (.cons (.micro (.releaseRoom (c := 0) rfl (by decide)))
    (.cons (.throw (.releasePush (c := 0) rfl)) (.cons (.micro (.unwindUnlock (c := 0) rfl))
    (.cons (.micro (.unwindReturn (c := 0) rfl)) (.cons (.micro (.answer (c := 0) rfl)) ?_)))))))
  rw [Path.nil_iff]
  simp [Locked.goto, served, thrown, State.lose, Heap.destruct]

/-- The `Release` of client 1 has put its object into the pool. -/
def restocked : Locked ℕ PacketBuffer :=
  ⟨⟨⟨[some 1], 1⟩, ⟨[[], []], [0]⟩, []⟩, none, fun _ => .idle⟩

theorem path_restocked :
    Path Exec thrown [some (.call 1 (.act (.release 1 (some 1)))), none, none, none, none, none, none,
      some (.ret 1 .unit)] restocked := by
  apply Path.mono Exec.micro
  refine .cons (.callRelease rfl (show (1, 1) ∈ thrown.owned by decide))
    (.cons (.releaseNonnull (c := 1) rfl) (.cons (.releaseLock (c := 1) rfl rfl)
    (.cons (.releaseRoom (c := 1) rfl (by decide)) (.cons (.releasePush (c := 1) rfl)
    (.cons (.releaseUnlock (c := 1) rfl) (.cons (.releaseReturn (c := 1) rfl)
    (.cons (.answer (c := 1) rfl) ?_)))))))
  rw [Path.nil_iff]
  simp [Locked.goto, thrown, restocked, State.lose, Queue.push, UniquePtr.move]

end NexusCore
