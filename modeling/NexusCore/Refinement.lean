import Mathlib.Data.List.Perm.Lattice
import NexusCore.Mutex
import NexusCore.Custody

/-!
# The atomic pool follows the member functions

The pool of `Mutex` runs its member functions statement by statement, that of `Exceptions` executes
every call in one step.  `Refines` relates their states, and every statement of the former is
followed by the latter (`follows_exec`).  An `Acquire` has its effect when it makes an object or
moves the front of the queue, a `Release` when it finds its parameter null, finds the pool full, or
pushes, and a call that throws when it does.  Before or after, an object may be in a frame instead of
where the atomic pool has it, and a discarded object may still wait for its destructor.
-/

open Transition

namespace NexusCore

variable {C T : Type*}

/-! ## What a frame stands for -/

namespace Frame

/-- What the call in progress has done, seen from outside. -/
def status (c : C) : Frame T → Atomic.Status (Request C T) (Value T)
  | idle => .idle
  | own a => .called (a.request c)
  | acquireLock | acquireTest | acquireMake | acquireMove => .called (.act (.acquire c))
  | acquirePop obj | acquireUnlock obj | acquireReturn obj => .answered (.pointer obj)
  | releaseTest obj => .called (.act (.release c obj))
  | releaseLock obj | releaseSize obj | releasePush obj => .called (.act (.release c (some obj)))
  | releaseUnlock _ | releaseReturn _ => .answered .unit
  | sizeLock | sizeRead => .called (.act (.getPoolSize c))
  | sizeUnlock n => .answered (.size n)
  | unwindUnlock e _ | unwindReturn e _ => .answered (.thrown e)
  | answer v => .answered v

/-- The object that belongs to the client through a parameter or a local. -/
def carried : Frame T → Option Obj
  | releaseTest obj => obj
  | releaseLock obj | releaseSize obj | releasePush obj => some obj
  | acquirePop obj | acquireUnlock obj | acquireReturn obj => obj
  | _ => none

/-- The object that has been discarded and waits for its destructor. -/
def doomed : Frame T → Option Obj
  | releaseUnlock obj | releaseReturn obj => obj
  | unwindUnlock _ obj | unwindReturn _ obj => obj
  | _ => none

/-- The pointer in the parameter or the local of the call in progress. -/
def pointer : Frame T → UniquePtr
  | acquirePop obj | acquireUnlock obj | acquireReturn obj => obj
  | releaseTest obj | releaseUnlock obj | releaseReturn obj => obj
  | releaseLock obj | releaseSize obj | releasePush obj => some obj
  | unwindUnlock _ obj | unwindReturn _ obj => obj
  | _ => none

theorem pointer_cases {k : Frame T} {o : Obj} (h : k.pointer = some o) :
    k.carried = some o ∨ k.doomed = some o := by
  cases k with
  | releaseUnlock | releaseReturn | unwindUnlock | unwindReturn => exact Or.inr h
  | _ => exact Or.inl h

/-- What the client that holds `mutex_` knows about `pool_`, which is `q` but for the front slot that
it is about to pop. -/
def Inside (m : MemoryPool) (q : Queue) : Frame T → Prop
  | acquireMake => m.pool = q ∧ q = []
  | acquireMove => m.pool = q ∧ q ≠ []
  | acquirePop _ => m.pool = none :: q
  | releasePush _ => m.pool = q ∧ q.length < m.maxSize
  | _ => m.pool = q

end Frame

variable [DecidableEq C]

/-- The possession `w` of the clients consists of their variables `v` and what their frames carry. -/
def Carries (w v : List (C × Obj)) (fr : C → Frame T) : Prop :=
  ∀ c o, w.count (c, o) = v.count (c, o) + (fr c).carried.toList.count o

/-- The objects `d` are those whose destructor has run, `e`, and those that wait for it in a frame. -/
def Doomed (d e : List Obj) (fr : C → Frame T) : Prop :=
  ∃ l : List (C × Obj), l.Nodup ∧ (∀ c o, (c, o) ∈ l ↔ (fr c).doomed = some o) ∧
    d.Perm (e ++ l.map Prod.snd)

/-- How a state of the member functions and a state of the atomic pool correspond. -/
structure Refines (f : Locked C T) (x : Shared C T) : Prop where
  locks : Locks f.mutex f.frame
  status : x.2 = fun c => (f.frame c).status c
  maxSize : x.1.memoryPool.maxSize = f.memoryPool.maxSize
  free : f.mutex = none → f.memoryPool.pool = x.1.memoryPool.pool
  inside : ∀ c, f.mutex = some c → (f.frame c).Inside f.memoryPool x.1.memoryPool.pool
  objects : x.1.heap.objects = f.heap.objects
  owned : Carries x.1.owned f.owned f.frame
  destroyed : Doomed x.1.heap.destroyed f.heap.destroyed f.frame

/-! ## Pointers in frames -/

section

variable {w w' v v' : List (C × Obj)} {d e : List Obj} {fr : C → Frame T} {c : C}
  {k₀ k : Frame T} {o : Obj}

/-- Only the possession of `c` changes. -/
theorem Carries.update (h : Carries w v fr) (hat : fr c = k₀)
    (hother : ∀ c', c' ≠ c → ∀ o, w'.count (c', o) + v.count (c', o) =
      w.count (c', o) + v'.count (c', o))
    (hself : ∀ o, w'.count (c, o) + v.count (c, o) + k₀.carried.toList.count o =
      w.count (c, o) + v'.count (c, o) + k.carried.toList.count o) :
    Carries w' v' (Function.update fr c k) := by
  refine (Function.forall_update_iff fr fun c' k =>
    ∀ o, w'.count (c', o) = v'.count (c', o) + k.carried.toList.count o).2
      ⟨fun o => ?_, fun c' hc o => ?_⟩
  · have hc := h c o
    have hchange := hself o
    rw [hat] at hc
    omega
  · have hc' := h c' o
    have hsame := hother c' hc o
    omega

theorem Carries.goto (h : Carries w v fr) (hat : fr c = k₀) (hk : k.carried = k₀.carried) :
    Carries w v (Function.update fr c k) :=
  h.update hat (fun _ _ _ => rfl) (fun _ => by rw [hk])

theorem count_gain (w : List (C × Obj)) (c c' : C) (p : UniquePtr) (o : Obj) :
    (w ++ p.toList.map fun o => (c, o)).count (c', o) =
      w.count (c', o) + if c' = c then p.toList.count o else 0 := by
  rw [List.count_append]
  by_cases hc : c' = c
  · rw [if_pos hc, hc, List.count_map_of_injective _ _ fun _ _ heq => (Prod.mk.inj heq).2]
  · have hnot : (c', o) ∉ p.toList.map fun o => (c, o) := by
      rw [List.mem_map]
      rintro ⟨o', -, heq⟩
      exact hc (congrArg Prod.fst heq).symm
    rw [if_neg hc, List.count_eq_zero.2 hnot]

theorem count_lose (howned : (c, o) ∈ w) (c' : C) (o' : Obj) :
    (w.erase (c, o)).count (c', o') + (if c' = c then [o].count o' else 0) = w.count (c', o') := by
  rw [count_one, (List.perm_cons_erase howned).count_eq (c', o'), count_cons_one]
  by_cases hc : c' = c <;> simp [hc]

/-- `c` becomes the owner of what `p` points to, through its frame. -/
theorem Carries.receive (h : Carries w v fr) (hat : fr c = k₀) {p : UniquePtr}
    (hc : k₀.carried = none) (hk : k.carried = p) :
    Carries (w ++ p.toList.map fun o => (c, o)) v (Function.update fr c k) := by
  refine h.update hat (fun c' hc' o => ?_) (fun o => ?_)
  · rw [count_gain, if_neg hc', Nat.add_zero]
  · rw [count_gain, if_pos rfl, hc, hk, Option.toList_none, List.count_nil]
    omega

/-- The pointer that `c` carries comes into a variable. -/
theorem Carries.deliver (h : Carries w v fr) (hat : fr c = k₀) {p : UniquePtr}
    (hc : k₀.carried = p) (hk : k.carried = none) :
    Carries w (v ++ p.toList.map fun o => (c, o)) (Function.update fr c k) := by
  refine h.update hat (fun c' hc' o => ?_) (fun o => ?_)
  · rw [count_gain, if_neg hc', Nat.add_zero]
  · rw [count_gain, if_pos rfl, hc, hk, Option.toList_none, List.count_nil]
    omega

/-- A pointer of `c` is passed on from a variable. -/
theorem Carries.pass (h : Carries w v fr) (hat : fr c = k₀) (howned : (c, o) ∈ v)
    (hc : k₀.carried = none) (hk : k.carried = some o) :
    Carries w (v.erase (c, o)) (Function.update fr c k) := by
  refine h.update hat (fun c' hc' o' => ?_) (fun o' => ?_)
  · rw [← count_lose howned, if_neg hc', Nat.add_zero]
  · rw [← count_lose howned, if_pos rfl, hc, hk, Option.toList_none, Option.toList_some,
      List.count_nil]
    omega

/-- `c` gives up the object that it carries. -/
theorem Carries.give_up (h : Carries w v fr) (hat : fr c = k₀) (howned : (c, o) ∈ w)
    (hc : k₀.carried = some o) (hk : k.carried = none) :
    Carries (w.erase (c, o)) v (Function.update fr c k) := by
  refine h.update hat (fun c' hc' o' => ?_) (fun o' => ?_)
  · rw [← count_lose howned, if_neg hc', Nat.add_zero]
  · rw [← count_lose howned c o', if_pos rfl, hc, hk, Option.toList_none, Option.toList_some,
      List.count_nil]
    omega

theorem Carries.append (h : Carries w v fr) (l : List (C × Obj)) :
    Carries (w ++ l) (v ++ l) fr := by
  intro c o
  rw [List.count_append, List.count_append, h c o]
  omega

theorem Carries.mem (h : Carries w v fr) {x : C × Obj} (hx : x ∈ v) : x ∈ w := by
  have hpos := List.count_pos_iff.2 hx
  apply List.count_pos_iff.1
  apply Nat.lt_of_lt_of_le hpos
  rw [h x.1 x.2]
  exact Nat.le_add_right _ _

theorem Carries.erase (h : Carries w v fr) (hx : (c, o) ∈ v) :
    Carries (w.erase (c, o)) (v.erase (c, o)) fr := by
  intro c' o'
  have hw := count_lose (h.mem hx) c' o'
  have hv := count_lose hx c' o'
  have hcount := h c' o'
  omega

theorem Doomed.goto (h : Doomed d e fr) (hat : fr c = k₀) (hk : k.doomed = k₀.doomed) :
    Doomed d e (Function.update fr c k) := by
  obtain ⟨l, hnodup, hl, hperm⟩ := h
  refine ⟨l, hnodup, ?_, hperm⟩
  refine (Function.forall_update_iff fr fun c' k => ∀ o, (c', o) ∈ l ↔ k.doomed = some o).2
    ⟨?_, fun c' _ => hl c'⟩
  rw [hk, ← hat]
  exact hl c

omit [DecidableEq C] in
theorem Doomed.append (h : Doomed d e fr) (o : Obj) : Doomed (d ++ [o]) (e ++ [o]) fr := by
  obtain ⟨l, hnodup, hl, hperm⟩ := h
  refine ⟨l, hnodup, hl, (hperm.append_right [o]).trans ?_⟩
  rw [List.append_assoc, List.append_assoc]
  exact List.perm_append_comm.append_left e

/-- A discarded object waits in the frame of `c`. -/
theorem Doomed.doom (h : Doomed d e fr) (hat : fr c = k₀) (hc : k₀.doomed = none)
    (hk : k.doomed = some o) : Doomed (d ++ [o]) e (Function.update fr c k) := by
  obtain ⟨l, hnodup, hl, hperm⟩ := h
  have hnew : ∀ o', (c, o') ∉ l := fun o' hmem => by
    have hfull := (hl c o').1 hmem
    rw [hat, hc] at hfull
    cases hfull
  refine ⟨l ++ [(c, o)], ?_, ?_, ?_⟩
  · rw [List.nodup_append_comm]
    exact List.nodup_cons.2 ⟨hnew o, hnodup⟩
  · refine (Function.forall_update_iff fr fun c' k =>
      ∀ o', (c', o') ∈ l ++ [(c, o)] ↔ k.doomed = some o').2 ⟨fun o' => ?_, fun c' hc' o' => ?_⟩
    · rw [hk]
      simp [hnew, eq_comm]
    · rw [← hl]
      simp [hc']
  · rw [List.map_append, ← List.append_assoc]
    exact hperm.append_right [o]

/-- The destructor runs. -/
theorem Doomed.destroy (h : Doomed d e fr) (hat : fr c = k₀) (hc : k₀.doomed = some o)
    (hk : k.doomed = none) : Doomed d (e ++ [o]) (Function.update fr c k) := by
  obtain ⟨l, hnodup, hl, hperm⟩ := h
  have hmem : (c, o) ∈ l := (hl c o).2 (hat ▸ hc)
  refine ⟨l.erase (c, o), hnodup.erase _, ?_, hperm.trans ?_⟩
  · refine (Function.forall_update_iff fr fun c' k =>
      ∀ o', (c', o') ∈ l.erase (c, o) ↔ k.doomed = some o').2 ⟨fun o' => ?_, fun c' hc' o' => ?_⟩
    · rw [hnodup.mem_erase_iff, hl, hat, hc, hk]
      simp [eq_comm]
    · rw [hnodup.mem_erase_iff, hl]
      simp [hc']
  · rw [List.append_assoc]
    exact ((List.perm_cons_erase hmem).map Prod.snd).append_left e

/-- The frame of a client that does not hold the lock says nothing about `pool_`. -/
theorem inside_goto {m : Option C} {mp : MemoryPool} {q : Queue}
    (h : ∀ c', m = some c' → (fr c').Inside mp q) (hc : m = some c → k.Inside mp q) :
    ∀ c', m = some c' → (Function.update fr c k c').Inside mp q :=
  (Function.forall_update_iff fr fun c' k => m = some c' → k.Inside mp q).2 ⟨hc, fun c' _ => h c'⟩

end

/-! ## One statement -/

section

variable {f g : Locked C T} {x : Shared C T} {c : C} {k₀ k : Frame T}

theorem Refines.status_at (h : Refines f x) (hat : f.frame c = k) : x.2 c = k.status c :=
  (congrFun h.status c).trans (congrArg (Frame.status c) hat)

theorem Refines.status_goto (h : Refines f x) :
    Function.update x.2 c (k.status c) =
      fun c' => (Function.update f.frame c k c').status c' := by
  funext c'
  by_cases hc : c' = c
  · rw [hc, Function.update_self, Function.update_self]
  · rw [Function.update_of_ne hc, Function.update_of_ne hc, h.status]

theorem Refines.status_self (h : Refines f x) (hat : f.frame c = k₀)
    (hk : k.status c = k₀.status c) : Function.update x.2 c (k.status c) = x.2 := by
  rw [hk, ← h.status_at hat]
  exact Function.update_eq_self c _

/-- What the client in the critical section knows. -/
theorem Refines.inside_at (h : Refines f x) (hat : f.frame c = k₀)
    (hcritical : k₀.critical = true) :
    f.mutex = some c ∧ k₀.Inside f.memoryPool x.1.memoryPool.pool := by
  subst hat
  have hm := (h.locks c).2 hcritical
  exact ⟨hm, h.inside c hm⟩

theorem Refines.mem_owned (h : Refines f x) (hat : f.frame c = k₀) {o : Obj}
    (hc : k₀.carried = some o) : (c, o) ∈ x.1.owned := by
  have hcount := h.owned c o
  rw [hat, hc] at hcount
  apply List.count_pos_iff.1
  rw [hcount]
  simp

/-- An object whose destructor has run, or is about to run, is in no use. -/
theorem Refines.dead (h : Refines f x) {k : Ledger.Book Obj (Place C)} (hk : Custody x.1 k) {o : Obj}
    (hd : o ∈ f.heap.destroyed ∨ ∃ c, (f.frame c).doomed = some o) : k o = some .destroyed := by
  obtain ⟨l, -, hl, hperm⟩ := h.destroyed
  apply hk.destroyed_iff.1
  apply hperm.mem_iff.2
  rcases hd with hmem | ⟨c, hc⟩
  · exact List.mem_append_left _ hmem
  · exact List.mem_append_right _ (List.mem_map_of_mem ((hl c o).2 hc))

theorem Refines.created (h : Refines f x) : x.1.heap.created = f.heap.created :=
  congrArg List.length h.objects

/-- A step of `c` that leaves the pool and the lock as they are. -/
theorem Refines.outside {s : State C T} (h : Refines f x) (hlocks : Locks g.mutex g.frame)
    (hframe : g.frame = Function.update f.frame c k) (hmutex : g.mutex = f.mutex)
    (hpool : g.memoryPool = f.memoryPool) (hs : s.memoryPool = x.1.memoryPool)
    (hat : f.frame c = k₀) (hk : k₀.critical = false)
    (hobjects : s.heap.objects = g.heap.objects)
    (howned : Carries s.owned g.owned (Function.update f.frame c k))
    (hdestroyed : Doomed s.heap.destroyed g.heap.destroyed (Function.update f.frame c k)) :
    Refines g (s, Function.update x.2 c (k.status c)) where
  locks := hlocks
  status := hframe ▸ h.status_goto
  maxSize := by rw [hs, hpool, h.maxSize]
  free := fun hfree => by
    rw [hpool, hs]
    exact h.free (hmutex ▸ hfree)
  inside := by
    rw [hframe, hpool, hs, hmutex]
    refine inside_goto h.inside fun hm => ?_
    have hcritical := (h.locks c).1 hm
    rw [hat, hk] at hcritical
    cases hcritical
  objects := hobjects
  owned := hframe ▸ howned
  destroyed := hframe ▸ hdestroyed

/-- A step that `c` ends inside its critical section. -/
theorem Refines.within {s : State C T} (h : Refines f x) (hlocks : Locks g.mutex g.frame)
    (hframe : g.frame = Function.update f.frame c k) (hmutex : g.mutex = some c)
    (hmax : s.memoryPool.maxSize = g.memoryPool.maxSize)
    (hinside : k.Inside g.memoryPool s.memoryPool.pool)
    (hobjects : s.heap.objects = g.heap.objects)
    (howned : Carries s.owned g.owned (Function.update f.frame c k))
    (hdestroyed : Doomed s.heap.destroyed g.heap.destroyed (Function.update f.frame c k)) :
    Refines g (s, Function.update x.2 c (k.status c)) where
  locks := hlocks
  status := hframe ▸ h.status_goto
  maxSize := hmax
  free := fun hfree => by
    rw [hmutex] at hfree
    cases hfree
  inside := fun c' hc' => by
    rw [hmutex] at hc'
    cases hc'
    rw [hframe, Function.update_self]
    exact hinside
  objects := hobjects
  owned := hframe ▸ howned
  destroyed := hframe ▸ hdestroyed

/-- A step of `c` outside of a critical section that changes nothing but its frame. -/
theorem Refines.goto_outside (h : Refines f x) (hat : f.frame c = k₀) (hk₀ : k₀.critical = false)
    (hk : k.critical = false) (hcarried : k.carried = k₀.carried) (hdoomed : k.doomed = k₀.doomed) :
    Refines (f.goto c k) (x.1, Function.update x.2 c (k.status c)) :=
  h.outside (h.locks.keep hat (hk.trans hk₀.symm)) rfl rfl rfl rfl hat hk₀ h.objects
    (h.owned.goto hat hcarried) (h.destroyed.goto hat hdoomed)

/-- A step of `c` in a critical section that changes nothing but its frame. -/
theorem Refines.goto_within (h : Refines f x) (hat : f.frame c = k₀) (hk₀ : k₀.critical = true)
    (hk : k.critical = true) (hinside : k.Inside f.memoryPool x.1.memoryPool.pool)
    (hcarried : k.carried = k₀.carried) (hdoomed : k.doomed = k₀.doomed) :
    Refines (f.goto c k) (x.1, Function.update x.2 c (k.status c)) :=
  h.within (h.locks.keep hat (hk.trans hk₀.symm)) rfl (h.inside_at hat hk₀).1 h.maxSize hinside
    h.objects (h.owned.goto hat hcarried) (h.destroyed.goto hat hdoomed)

/-- A step by which `c` leaves its critical section. -/
theorem Refines.leave (h : Refines f x) (hat : f.frame c = k₀) (hcritical : k₀.critical = true)
    (hpool : f.memoryPool.pool = x.1.memoryPool.pool) (hk : k.critical = false)
    (hcarried : k.carried = k₀.carried) (hdoomed : k.doomed = k₀.doomed) :
    Refines ({ f with mutex := none }.goto c k) (x.1, Function.update x.2 c (k.status c)) where
  locks := h.locks.drop hat hcritical hk
  status := h.status_goto
  maxSize := h.maxSize
  free := fun _ => hpool
  inside := nofun
  objects := h.objects
  owned := h.owned.goto hat hcarried
  destroyed := h.destroyed.goto hat hdoomed

/-- The atomic pool can show `l` and come to a state that corresponds to `g`. -/
def Follows [Inhabited T] (x : Shared C T) (l : Option (Seen C T)) (g : Locked C T) : Prop :=
  ∃ ks y, Path (Atomic.Step Serve Reply.value) x ks y ∧
    ks.filterMap Atomic.Label.visible = l.toList ∧ Refines g y

variable [Inhabited T]

theorem Refines.silent (h : Refines f x) (hat : f.frame c = k₀)
    (hg : Refines g (x.1, Function.update x.2 c (k.status c)))
    (hstatus : k.status c = k₀.status c) : Follows x none g := by
  rw [h.status_self hat hstatus] at hg
  exact ⟨[], x, .nil x, rfl, hg⟩

theorem Refines.call (h : Refines f x) (hat : f.frame c = .idle) {a : Request C T}
    (hstatus : k.status c = .called a)
    (hg : Refines g (x.1, Function.update x.2 c (k.status c))) :
    Follows x (some (.call c a)) g := by
  rw [hstatus] at hg
  exact ⟨[.seen (.call c a)], _, .cons (.call a (h.status_at hat)) (.nil _), rfl, hg⟩

theorem Refines.commit_serve (h : Refines f x) (hat : f.frame c = k₀) {a : Request C T}
    {r : Reply T} {s : State C T} (hcalled : k₀.status c = .called a) (hstep : Serve x.1 (a, r) s)
    (hstatus : k.status c = .answered r.value)
    (hg : Refines g (s, Function.update x.2 c (k.status c))) : Follows x none g := by
  rw [hstatus] at hg
  have hfrom := (h.status_at hat).trans hcalled
  exact ⟨[.commit c a r], _, .cons (.commit hfrom hstep) (.nil _), rfl, hg⟩

theorem Refines.commit (h : Refines f x) (hat : f.frame c = k₀) {a : Action C T} {r : Result T}
    {s : State C T} (hcalled : k₀.status c = .called (.act a)) (hmove : Move x.1 (a, r) s)
    (hstatus : k.status c = .answered r.value)
    (hg : Refines g (s, Function.update x.2 c (k.status c))) : Follows x none g :=
  h.commit_serve hat hcalled (.act (tryStep_of_step (step_iff_move.2 hmove))) hstatus hg

theorem Refines.ret (h : Refines f x) (hat : f.frame c = k₀) {v : Value T}
    (hanswered : k₀.status c = .answered v)
    (hg : Refines g (x.1, Function.update x.2 c ((Frame.idle : Frame T).status c))) :
    Follows x (some (.ret c v)) g := by
  have hfrom := (h.status_at hat).trans hanswered
  exact ⟨[.seen (.ret c v)], _, .cons (.ret hfrom) (.nil _), rfl, hg⟩

/-! The statements of the clients' own are the same for both pools. -/

theorem follows_create (h : Refines f x) (hat : f.frame c = .own .create) :
    Follows x none
      ({ f with heap := f.heap.makeUnique.2, owned := f.gain c f.heap.makeUnique.1 }.goto c
        (.answer (.pointer f.heap.makeUnique.1))) := by
  have hlocks := locks_micro (.create hat) h.locks
  have hmove := Move.create (s := x.1) (c := c)
  refine h.commit hat rfl hmove ?_ (h.outside hlocks rfl rfl rfl rfl hat rfl ?_ ?_
    (h.destroyed.goto hat rfl))
  · rw [h.created]
    rfl
  · exact congrArg (· ++ [default]) h.objects
  · rw [h.created]
    exact (h.owned.append _).goto hat rfl

theorem follows_destroy (h : Refines f x) {o : Obj} (hat : f.frame c = .own (.destroy o))
    (howned : (c, o) ∈ f.owned) :
    Follows x none
      ({ f with heap := f.heap.destruct (some o), owned := f.lose c (some o) }.goto c
        (.answer .unit)) := by
  have hlocks := locks_micro (.destroy hat howned) h.locks
  have hmove := Move.destroy (h.owned.mem howned)
  exact h.commit hat rfl hmove rfl (h.outside hlocks rfl rfl rfl rfl hat rfl h.objects
    ((h.owned.erase howned).goto hat rfl) ((h.destroyed.append o).goto hat rfl))

theorem follows_write (h : Refines f x) {o : Obj} {v : T} (hat : f.frame c = .own (.write o v))
    (howned : (c, o) ∈ f.owned) :
    Follows x none ({ f with heap := f.heap.write o v }.goto c (.answer .unit)) := by
  have hlocks := locks_micro (.write hat howned) h.locks
  have hmove := Move.write (v := v) (h.owned.mem howned)
  exact h.commit hat rfl hmove rfl (h.outside hlocks rfl rfl rfl rfl hat rfl
    (congrArg (·.set o v) h.objects) (h.owned.goto hat rfl) (h.destroyed.goto hat rfl))

theorem follows_read (h : Refines f x) {o : Obj} (hat : f.frame c = .own (.read o))
    (howned : (c, o) ∈ f.owned) :
    Follows x none (f.goto c (.answer (.contents (f.heap.read (some o))))) := by
  have hread : f.heap.read (some o) = x.1.heap.read (some o) := by
    rw [Heap.read, Heap.read, h.objects]
  rw [hread]
  exact h.commit_serve hat rfl (.read (h.owned.mem howned)) rfl (h.goto_outside hat rfl rfl rfl rfl)

/-- `Acquire` has its effect when it makes an object. -/
theorem follows_acquireMake (h : Refines f x) (hat : f.frame c = .acquireMake) :
    Follows x none
      ({ f with heap := f.heap.makeUnique.2 }.goto c (.acquireUnlock f.heap.makeUnique.1)) := by
  have hlocks := locks_micro (.acquireMake hat) h.locks
  obtain ⟨hm, hpool, hnil⟩ := h.inside_at hat rfl
  have hmove := Move.allocate (s := x.1) (c := c) hnil
  have hnew : f.heap.makeUnique.1 = some x.1.heap.created := by
    rw [h.created]
    rfl
  rw [hnew] at hlocks ⊢
  exact h.commit hat rfl hmove rfl (h.within hlocks rfl hm h.maxSize hpool
    (congrArg (· ++ [default]) h.objects) (h.owned.receive (p := some _) hat rfl rfl)
    (h.destroyed.goto hat rfl))

/-- `Acquire` has its effect when it moves the front. -/
theorem follows_acquireMove (h : Refines f x) (hat : f.frame c = .acquireMove) :
    Follows x none
      ({ f with memoryPool := { f.memoryPool with pool := f.memoryPool.pool.moveFront.2 } }.goto c
        (.acquirePop f.memoryPool.pool.moveFront.1)) := by
  have hlocks := locks_micro (.acquireMove hat) h.locks
  obtain ⟨hm, hpool, hne⟩ := h.inside_at hat rfl
  obtain ⟨p, q, hq⟩ := List.exists_cons_of_ne_nil hne
  have hmove := Move.recycle (s := x.1) (c := c) hq
  have hfront : f.memoryPool.pool.moveFront = (p, none :: q) := by
    rw [hpool, hq]
    rfl
  rw [hfront] at hlocks ⊢
  exact h.commit hat rfl hmove rfl (h.within hlocks rfl hm h.maxSize rfl h.objects
    (h.owned.receive hat rfl rfl) (h.destroyed.goto hat rfl))

/-- The slot that is popped is the one that was moved from. -/
theorem follows_acquirePop (h : Refines f x) {obj : UniquePtr}
    (hat : f.frame c = .acquirePop obj) :
    Follows x none
      ({ f with
          memoryPool := { f.memoryPool with pool := (f.memoryPool.pool.pop f.heap).1 }
          heap := (f.memoryPool.pool.pop f.heap).2 }.goto c (.acquireUnlock obj)) := by
  have hlocks := locks_micro (.acquirePop hat) h.locks
  obtain ⟨hm, hpool⟩ := h.inside_at hat rfl
  have hslots : f.memoryPool.pool = none :: x.1.memoryPool.pool := hpool
  have hpop : f.memoryPool.pool.pop f.heap = (x.1.memoryPool.pool, f.heap) := by
    rw [hslots, Queue.pop, Heap.destruct_none]
  rw [hpop] at hlocks ⊢
  exact h.silent hat (h.within hlocks rfl hm h.maxSize rfl h.objects (h.owned.goto hat rfl)
    (h.destroyed.goto hat rfl)) rfl

/-- `Release` has its effect when it finds the pool full. -/
theorem follows_releaseFull (h : Refines f x) {obj : Obj} (hat : f.frame c = .releaseSize obj)
    (hfull : ¬ f.memoryPool.pool.length < f.memoryPool.maxSize) :
    Follows x none (f.goto c (.releaseUnlock (some obj))) := by
  have hlocks := locks_micro (.releaseFull hat hfull) h.locks
  obtain ⟨hm, hpool⟩ := h.inside_at hat rfl
  have hslots : f.memoryPool.pool = x.1.memoryPool.pool := hpool
  rw [hslots, ← h.maxSize] at hfull
  have howned := h.mem_owned hat rfl
  have hmove := Move.discard howned (Nat.le_of_not_lt hfull)
  exact h.commit hat rfl hmove rfl (h.within hlocks rfl hm h.maxSize hpool h.objects
    (h.owned.give_up hat howned rfl rfl) (h.destroyed.doom hat rfl rfl))

/-- `Release` has its effect when it pushes. -/
theorem follows_releasePush (h : Refines f x) {obj : Obj} (hat : f.frame c = .releasePush obj) :
    Follows x none
      ({ f with
          memoryPool := { f.memoryPool with
            pool := f.memoryPool.pool.push (UniquePtr.move (some obj)).1 } }.goto c
        (.releaseUnlock (UniquePtr.move (some obj)).2)) := by
  have hlocks := locks_micro (.releasePush hat) h.locks
  obtain ⟨hm, hpool, hroom⟩ := h.inside_at hat rfl
  rw [← h.maxSize] at hroom
  have howned := h.mem_owned hat rfl
  have hmove := Move.store howned hroom
  exact h.commit hat rfl hmove rfl (h.within hlocks rfl hm h.maxSize
    (congrArg (· ++ [some obj]) hpool) h.objects (h.owned.give_up hat howned rfl rfl)
    (h.destroyed.goto hat rfl))

/-- The destructor of the parameter runs when the call has had its effect. -/
theorem follows_return (h : Refines f x) {obj : UniquePtr} {v : Value T}
    (hlocks : Locks f.mutex (Function.update f.frame c (.answer v))) (hat : f.frame c = k₀)
    (hk : k₀.critical = false) (hcarried : k₀.carried = none) (hdoomed : k₀.doomed = obj)
    (hanswered : k₀.status c = .answered v) :
    Follows x none ({ f with heap := f.heap.destruct obj }.goto c (.answer v)) := by
  refine h.silent hat (h.outside hlocks rfl rfl rfl rfl hat hk h.objects
    (h.owned.goto hat hcarried.symm) ?_) hanswered.symm
  cases obj with
  | none =>
    rw [Heap.destruct_none]
    exact h.destroyed.goto hat hdoomed.symm
  | some o => exact h.destroyed.destroy hat hdoomed rfl

/-- Every statement is followed by the atomic pool. -/
theorem follows_micro {l : Option (Seen C T)} (hstep : Micro f l g) (h : Refines f x) :
    Follows x l g := by
  have hlocks := locks_micro hstep h.locks
  cases hstep with
  | create hat => exact follows_create h hat
  | destroy hat howned => exact follows_destroy h hat howned
  | write hat howned => exact follows_write h hat howned
  | read hat howned => exact follows_read h hat howned
  | acquireMake hat => exact follows_acquireMake h hat
  | acquireMove hat => exact follows_acquireMove h hat
  | acquirePop hat => exact follows_acquirePop h hat
  | releaseFull hat hfull => exact follows_releaseFull h hat hfull
  | releasePush hat => exact follows_releasePush h hat
  | releaseReturn hat | unwindReturn hat => exact follows_return h hlocks hat rfl rfl rfl rfl
  | callOwn hat | callAcquire hat | callSize hat =>
    exact h.call hat rfl (h.goto_outside hat rfl rfl rfl rfl)
  | @callRelease c obj hat howns =>
    refine h.call hat rfl (h.outside hlocks rfl rfl rfl rfl hat rfl h.objects ?_
      (h.destroyed.goto hat rfl))
    cases obj with
    | none => exact h.owned.goto hat rfl
    | some o => exact h.owned.pass hat howns rfl rfl
  | acquireLock hat hfree | releaseLock hat hfree | sizeLock hat hfree =>
    exact h.silent hat (h.within hlocks rfl rfl h.maxSize (h.free hfree) h.objects
      (h.owned.goto hat rfl) (h.destroyed.goto hat rfl)) rfl
  | acquireEmpty hat hempty =>
    obtain ⟨-, hpool⟩ := h.inside_at hat rfl
    have hnil := hpool.symm.trans (List.isEmpty_iff.1 hempty)
    exact h.silent hat (h.goto_within hat rfl rfl ⟨hpool, hnil⟩ rfl rfl) rfl
  | acquireNonempty hat hempty =>
    obtain ⟨-, hpool⟩ := h.inside_at hat rfl
    have hne : x.1.memoryPool.pool ≠ [] := List.isEmpty_eq_false_iff.1 (hpool ▸ hempty)
    exact h.silent hat (h.goto_within hat rfl rfl ⟨hpool, hne⟩ rfl rfl) rfl
  | releaseNull hat => exact h.commit hat rfl .ignore rfl (h.goto_outside hat rfl rfl rfl rfl)
  | releaseNonnull hat => exact h.silent hat (h.goto_outside hat rfl rfl rfl rfl) rfl
  | releaseRoom hat hroom =>
    obtain ⟨-, hpool⟩ := h.inside_at hat rfl
    exact h.silent hat (h.goto_within hat rfl rfl ⟨hpool, hpool ▸ hroom⟩ rfl rfl) rfl
  | sizeRead hat =>
    obtain ⟨-, hpool⟩ := h.inside_at hat rfl
    have hsize : f.memoryPool.getPoolSize = x.1.memoryPool.pool.length := congrArg List.length hpool
    rw [hsize]
    exact h.commit hat rfl .report rfl (h.goto_within hat rfl rfl hpool rfl rfl)
  | acquireUnlock hat | releaseUnlock hat | sizeUnlock hat | unwindUnlock hat =>
    obtain ⟨-, hpool⟩ := h.inside_at hat rfl
    exact h.silent hat (h.leave hat rfl hpool rfl rfl rfl) rfl
  | acquireReturn hat =>
    exact h.ret hat rfl (h.outside hlocks rfl rfl rfl rfl hat rfl h.objects
      (h.owned.deliver hat rfl rfl) (h.destroyed.goto hat rfl))
  | answer hat => exact h.ret hat rfl (h.goto_outside hat rfl rfl rfl rfl)

/-- A call that throws has its effect with the throw, before the stack is unwound. -/
theorem follows_throw (hstep : Throw f g) (h : Refines f x) : Follows x none g := by
  have hlocks := locks_throw hstep h.locks
  cases hstep with
  | create hat =>
    exact h.commit_serve hat rfl (.act (tryStep_create_make _ _)) rfl
      (h.goto_outside hat rfl rfl rfl rfl)
  | acquireLock hat =>
    exact h.commit_serve hat rfl (.act (tryStep_acquire_lock _ _)) rfl
      (h.goto_outside hat rfl rfl rfl rfl)
  | sizeLock hat =>
    exact h.commit_serve hat rfl (.act (tryStep_size_lock _ _)) rfl
      (h.goto_outside hat rfl rfl rfl rfl)
  | acquireMake hat =>
    obtain ⟨-, hpool, hnil⟩ := h.inside_at hat rfl
    exact h.commit_serve hat rfl (.act (tryStep_acquire_make hnil _)) rfl
      (h.goto_within hat rfl rfl hpool rfl rfl)
  | releaseLock hat =>
    have howned := h.mem_owned hat rfl
    exact h.commit_serve hat rfl (.act (tryStep_release_lock howned)) rfl
      (h.outside hlocks rfl rfl rfl rfl hat rfl h.objects (h.owned.give_up hat howned rfl rfl)
        (h.destroyed.doom hat rfl rfl))
  | releasePush hat =>
    obtain ⟨hm, hpool, hroom⟩ := h.inside_at hat rfl
    rw [← h.maxSize] at hroom
    have howned := h.mem_owned hat rfl
    exact h.commit_serve hat rfl (.act (tryStep_release_push howned hroom)) rfl
      (h.within hlocks rfl hm h.maxSize hpool h.objects (h.owned.give_up hat howned rfl rfl)
        (h.destroyed.doom hat rfl rfl))

theorem follows_exec {l : Option (Seen C T)} (hstep : Exec f l g) (h : Refines f x) :
    Follows x l g := by
  cases hstep with
  | micro hstep => exact follows_micro hstep h
  | throw hstep => exact follows_throw hstep h

end

end NexusCore
