import NexusCore.Library.Atomic
import NexusCore.Exceptions

/-!
# What a client sees

A client sees what the member functions return to it or throw, and it may look into its own objects.
Of a pointer it sees which object it leads to.  `Serve` is the pool of `Exceptions`, which executes
every call in one step, together with such looks; they change nothing, so a run of `Serve` is a run of
`Exceptions` without them (`acted_run`).
-/

open Transition

namespace NexusCore

variable {C T : Type*}

/-- The value a call returns, what it throws, or what a client has read. -/
inductive Value (T : Type*) where
  | pointer (p : UniquePtr)
  | size (n : ℕ)
  | contents (v : Option T)
  | unit
  | thrown (e : Fault)

/-- What the caller sees of a result. -/
def Result.value : Result T → Value T
  | .acquired p _ _ _ => .pointer p
  | .released _ _ _ => .unit
  | .poolSize n => .size n
  | .created p => .pointer p
  | .done => .unit

/-- What the caller sees of a call that may throw. -/
def tryValue : Except Fault (Result T) → Value T
  | .ok r => r.value
  | .error e => .thrown e

/-- What a client does. -/
inductive Request (C T : Type*) where
  | act (a : Action C T)
  /-- `*p`, for a pointer of `c` to `o`. -/
  | read (c : C) (o : Obj)

inductive Reply (T : Type*) where
  | result (r : Except Fault (Result T))
  | contents (v : Option T)

def Reply.value : Reply T → Value T
  | .result r => tryValue r
  | .contents v => .contents v

/-- What passes between the clients and the pool. -/
abbrev Seen (C T : Type*) := Atomic.Interface C (Request C T) (Value T)

/-- The atomic pool, and what each client is doing with it. -/
abbrev Shared (C T : Type*) := State C T × (C → Atomic.Status (Request C T) (Value T))

variable [DecidableEq C] [Inhabited T]

inductive Serve : State C T → Request C T × Reply T → State C T → Prop
  | act {s t : State C T} {a : Action C T} {r : Except Fault (Result T)}
      (h : TryStep s (a, r) t) : Serve s (.act a, .result r) t
  | read {s : State C T} {c : C} {o : Obj} (howned : (c, o) ∈ s.owned) :
      Serve s (.read c o, .contents (s.heap.read (some o))) s

/-- A step of `Exceptions`, if it is not a read. -/
def acted : Request C T × Reply T → Option (Action C T × Except Fault (Result T))
  | (.act a, .result r) => some (a, r)
  | _ => none

theorem acted_run {s t : State C T} {tr : List (Request C T × Reply T)} (h : Path Serve s tr t) :
    Path TryStep s (tr.filterMap acted) t := by
  obtain ⟨x, hpath, hx⟩ := Path.simulate TryStep acted (fun (s x : State C T) => s = x)
    (fun hR hstep hnone => by
      cases hstep with
      | act => cases hnone
      | read => exact hR)
    (fun hR hstep hsome => by
      cases hstep with
      | act h =>
        cases hsome
        exact ⟨_, hR ▸ h, rfl⟩
      | read => cases hsome)
    h rfl
  rwa [hx]

/-- The run of `Clients` that the effects of a path amount to: without the reads, and without what is
thrown. -/
def runOf (ks : List (Atomic.Label C (Request C T) (Reply T) (Value T))) : List (Event C T) :=
  ((ks.filterMap Atomic.Label.committed).filterMap acted).filterMap settled

theorem run_of_path {initialSize maxSize : ℕ}
    {ks : List (Atomic.Label C (Request C T) (Reply T) (Value T))} {x : Shared C T}
    (h : Path (Atomic.Step Serve Reply.value) (start C T initialSize maxSize, fun _ => .idle) ks x) :
    Run initialSize maxSize (runOf ks) x.1 :=
  settled_run (acted_run (Atomic.committed_path h))

end NexusCore
