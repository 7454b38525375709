import NexusCore.Library.Potential
import NexusCore.Mutex

/-!
# Every call ends

A client that waits for `mutex_` waits for a client inside a member function, and no member function
loops or waits for anything else, whatever is thrown.  So the statements that can still be executed
are bounded as long as no new calls are made, and when none is left, every call has returned or thrown
(`completes`).
-/

open Transition

namespace NexusCore

variable {C T : Type*}

/-- The statements of the call in progress that are left, at most. -/
def Frame.remaining : Frame T → ℕ
  | idle => 0
  | own _ => 2
  | acquireLock => 6
  | acquireTest => 5
  | acquireMake => 4
  | acquireMove => 4
  | acquirePop _ => 3
  | acquireUnlock _ => 2
  | acquireReturn _ => 1
  | releaseTest _ => 7
  | releaseLock _ => 6
  | releaseSize _ => 5
  | releasePush _ => 4
  | releaseUnlock _ => 3
  | releaseReturn _ => 2
  | sizeLock => 4
  | sizeRead => 3
  | sizeUnlock _ => 2
  | unwindUnlock _ _ => 3
  | unwindReturn _ _ => 2
  | answer _ => 1

/-- The statements a call consists of, at most, the call itself included. -/
def Request.statements : Request C T → ℕ
  | .act (.acquire _) => 7
  | .act (.release _ _) => 8
  | .act (.getPoolSize _) => 5
  | .act (.create _) | .act (.destroy _ _) | .act (.write _ _ _) | .read _ _ => 3

/-- What a label adds to the statements to be executed. -/
def incoming : Option (Seen C T) → ℕ
  | some (.call _ a) => a.statements
  | _ => 0

variable [DecidableEq C] [Inhabited T] {f g : Locked C T}
  {l : Option (Seen C T)}

/-- A statement changes one frame, and brings its client closer to the return. -/
theorem Micro.frame_eq (h : Micro f l g) :
    ∃ c k, g.frame = Function.update f.frame c k ∧
      k.remaining + 1 ≤ (f.frame c).remaining + incoming l := by
  cases h with
  | @callOwn c a hat => exact ⟨c, _, rfl, by cases a <;> exact Nat.le_add_left 3 _⟩
  | callAcquire hat | callRelease hat | callSize hat => exact ⟨_, _, rfl, Nat.le_add_left _ _⟩
  | create hat | destroy hat _ | write hat _ | read hat _ | acquireLock hat _ | acquireEmpty hat _
  | acquireNonempty hat _ | acquireMake hat | acquireMove hat | acquirePop hat | acquireUnlock hat
  | acquireReturn hat | releaseNull hat | releaseNonnull hat | releaseLock hat _
  | releaseRoom hat _ | releaseFull hat _ | releasePush hat | releaseUnlock hat
  | releaseReturn hat | sizeLock hat _ | sizeRead hat | sizeUnlock hat | unwindUnlock hat
  | unwindReturn hat | answer hat =>
    refine ⟨_, _, rfl, ?_⟩
    rw [hat]
    simp [Frame.remaining, incoming]

omit [Inhabited T] in
theorem Throw.frame_eq (h : Throw f g) :
    ∃ c k, g.frame = Function.update f.frame c k ∧ k.remaining + 1 ≤ (f.frame c).remaining := by
  cases h with
  | create hat | acquireLock hat | acquireMake hat | releaseLock hat | releasePush hat
  | sizeLock hat =>
    refine ⟨_, _, rfl, ?_⟩
    rw [hat]
    simp [Frame.remaining]

theorem Exec.frame_eq (h : Exec f l g) :
    ∃ c k, g.frame = Function.update f.frame c k ∧
      k.remaining + 1 ≤ (f.frame c).remaining + incoming l := by
  cases h with
  | micro h => exact h.frame_eq
  | throw h => exact h.frame_eq

theorem potential_exec : Potential (Exec (C := C) (T := T)) incoming
    (fun f n => Total Frame.remaining f.frame n) := by
  intro f l g n hn h
  obtain ⟨c, k, hframe, hspent⟩ := h.frame_eq
  obtain ⟨m, hm, hsum⟩ := hn.update c k
  refine ⟨m, ?_, by omega⟩
  show Total Frame.remaining g.frame m
  rwa [hframe]

/-- The statements executed are no more than the calls consist of.  From every state the calls in
progress can all be brought to their end without a new call and with nothing more thrown, and nothing
else can happen in the end: where only new calls and throws are possible, no member function is being
executed. -/
theorem completes {initialSize maxSize : ℕ}
    {ls : List (Option (Seen C T))}
    (h : Path Exec (Locked.start C T initialSize maxSize) ls f) :
    ls.length ≤ (ls.map incoming).sum ∧
    (∃ ls' g, Path Micro f ls' g ∧ (∀ l ∈ ls', incoming l = 0) ∧
      ∀ c, (g.frame c).inCall = false) ∧
    ((∀ l g, Micro f l g → incoming l ≠ 0) → ∀ c, (f.frame c).inCall = false) := by
  have hmicro : Potential (Micro (C := C) (T := T)) incoming
      (fun f n => Total Frame.remaining f.frame n) := fun hn h => potential_exec hn (.micro h)
  have hend : ∀ {ls f}, Path Exec (Locked.start C T initialSize maxSize) ls f →
      (∀ l g, Micro f l g → incoming l ≠ 0) → ∀ c, (f.frame c).inCall = false := by
    intro ls f h hstuck c
    rw [← Bool.not_eq_true]
    intro hc
    obtain ⟨l, g, hstep, hnocall⟩ := progress h hc
    apply hstuck l g hstep
    rcases l with _ | ⟨c', a⟩ | ⟨c', v⟩
    · rfl
    · exact absurd rfl (hnocall c' a)
    · rfl
  obtain ⟨n, hn, hlength⟩ := potential_exec.length_le h (total_of_zero fun _ => rfl)
  obtain ⟨ls', g, hpath, hzero, hstuck⟩ := hmicro.exhaust hn
  exact ⟨by omega, ⟨ls', g, hpath, hzero, hend (h.append (hpath.mono .micro)) hstuck⟩, hend h⟩

theorem completes_contended :
    contendedCalls.length ≤ (contendedCalls.map incoming).sum ∧
    (∃ ls' g, Path Micro contended ls' g ∧ (∀ l ∈ ls', incoming l = 0) ∧
      ∀ c, (g.frame c).inCall = false) ∧
    ((∀ l g, Micro contended l g → incoming l ≠ 0) → ∀ c, (contended.frame c).inCall = false) :=
  completes path_contended

end NexusCore
