import Mathlib.Data.List.GetD
import NexusCore.Custody

/-!
# What an acquired buffer contains

Neither the constructor, nor `Acquire`, nor `Release` touches the contents of an object.  So the
contents flow into nothing else: two runs with the same calls that write different data agree in
all but the data (`erased_runs_agree`).  And an acquired object has the contents its owners gave it
last (`contents_of_run`): those of a new `T` when `Acquire` created it, but for a recycled object
whatever its former owner left.
-/

open Transition

namespace NexusCore

variable {C T : Type*}

/-! ## Runs without their contents -/

/-- The action without the data written; a write has no effect but on the data. -/
def Action.erase : Action C T → Option (Action C Unit)
  | .acquire c => some (.acquire c)
  | .release c p => some (.release c p)
  | .getPoolSize c => some (.getPoolSize c)
  | .create c => some (.create c)
  | .destroy c o => some (.destroy c o)
  | .write _ _ _ => none

def Result.erase : Result T → Result Unit
  | .acquired p contents found allocated =>
    .acquired p (contents.map fun _ => ()) found allocated
  | .released found stored discarded => .released found stored discarded
  | .poolSize n => .poolSize n
  | .created p => .created p
  | .done => .done

def Heap.erase (h : Heap T) : Heap Unit := ⟨h.objects.map fun _ => (), h.destroyed⟩

def State.erase (s : State C T) : State C Unit := ⟨s.memoryPool, s.heap.erase, s.owned⟩

/-- The actions of a run, apart from the data written. -/
def skeleton (tr : List (Event C T)) : List (Action C Unit) := tr.filterMap fun e => e.1.erase

/-- The events of a run, apart from the contents of the objects. -/
def eraseTrace (tr : List (Event C T)) : List (Event C Unit) :=
  tr.filterMap fun e => e.1.erase.map fun a => (a, e.2.erase)

theorem map_fst_eraseTrace (tr : List (Event C T)) :
    (eraseTrace tr).map Prod.fst = skeleton tr := by
  rw [eraseTrace, skeleton, List.map_filterMap]
  apply List.filterMap_congr
  intro e _
  cases e.1.erase <;> rfl

@[simp] theorem Heap.created_erase (h : Heap T) : h.erase.created = h.created := by
  simp [Heap.erase, Heap.created]

theorem Heap.erase_makeUnique [Inhabited T] (h : Heap T) :
    h.makeUnique.2.erase = h.erase.makeUnique.2 := by
  simp [Heap.erase, Heap.makeUnique]

theorem Heap.erase_write (h : Heap T) (o : Obj) (v : T) : (h.write o v).erase = h.erase := by
  simp [Heap.erase, Heap.write]

theorem Heap.read_erase (h : Heap T) (p : UniquePtr) :
    h.erase.read p = (h.read p).map fun _ => () := by
  cases p with
  | none => rfl
  | some o => exact List.getElem?_map ..

section

variable [DecidableEq C] [Inhabited T]

omit [DecidableEq C] in
theorem erase_start (initialSize maxSize : ℕ) :
    (start C T initialSize maxSize).erase = start C Unit initialSize maxSize := by
  simp [start_eq, State.erase, Heap.erase]

theorem erase_step {s t : State C T} {e : Event C T} (h : Move s e t) :
    match e.1.erase with
    | none => t.erase = s.erase
    | some a => Move s.erase (a, e.2.erase) t.erase := by
  cases h with
  | @allocate c hempty =>
    have hmove := Move.allocate (s := s.erase) (c := c) hempty
    simp only [State.erase, Heap.created_erase, ← Heap.erase_makeUnique] at hmove
    exact hmove
  | @recycle c p q hpool =>
    have hmove := Move.recycle (s := s.erase) (c := c) hpool
    simp only [State.erase, Heap.read_erase] at hmove
    exact hmove
  | ignore => exact .ignore (s := s.erase)
  | store howned hroom => exact .store (s := s.erase) howned hroom
  | discard howned hfull => exact .discard (s := s.erase) howned hfull
  | report => exact .report (s := s.erase)
  | @create c =>
    have hmove := Move.create (s := s.erase) (c := c)
    simp only [State.erase, Heap.created_erase, ← Heap.erase_makeUnique] at hmove
    exact hmove
  | destroy howned => exact .destroy (s := s.erase) howned
  | write howned =>
    simp only [Action.erase, State.erase, Heap.erase_write]

/-- Without the contents, the runs of the clients are runs on objects that have none. -/
theorem erase_run {initialSize maxSize : ℕ} {tr : List (Event C T)} {s : State C T}
    (hrun : Run initialSize maxSize tr s) : Run initialSize maxSize (eraseTrace tr) s.erase := by
  obtain ⟨x, hpath, hx⟩ := Path.simulate Step
    (fun e : Event C T => e.1.erase.map fun a => (a, e.2.erase))
    (fun (s : State C T) (x : State C Unit) => s.erase = x)
    (fun {s e t x} hR hstep hnone => by
      have := erase_step (step_iff_move.1 hstep)
      rw [Option.map_eq_none_iff.1 hnone] at this
      exact this.trans hR)
    (fun {s e t x k} hR hstep hsome => by
      obtain ⟨a, ha, rfl⟩ := Option.map_eq_some_iff.1 hsome
      have := erase_step (step_iff_move.1 hstep)
      rw [ha, hR] at this
      exact ⟨t.erase, step_iff_move.2 this, rfl⟩)
    hrun (erase_start initialSize maxSize)
  rw [hx]
  exact hpath

/-- The data the clients write decide nothing but the contents of the objects. -/
theorem erased_runs_agree {initialSize maxSize : ℕ} {tr₁ tr₂ : List (Event C T)}
    {s₁ s₂ : State C T} (hrun₁ : Run initialSize maxSize tr₁ s₁)
    (hrun₂ : Run initialSize maxSize tr₂ s₂) (hsame : skeleton tr₁ = skeleton tr₂) :
    eraseTrace tr₁ = eraseTrace tr₂ ∧ s₁.erase = s₂.erase := by
  refine Path.determined Prod.fst ?_ (erase_run hrun₁) (erase_run hrun₂) ?_
  · rintro s ⟨a, r⟩ ⟨a', r'⟩ t t' hstep hstep' rfl
    have heq : some (r, t) = some (r', t') := hstep.symm.trans hstep'
    cases heq
    exact ⟨rfl, rfl⟩
  · rw [map_fst_eraseTrace, map_fst_eraseTrace, hsame]

end

/-! ## The contents -/

/-- The contents of `o`, or those of a new object if `o` is still to be created. -/
def Heap.contents [Inhabited T] (h : Heap T) (o : Obj) : T := h.objects.getD o default

/-- The data that the event writes to `o`. -/
def writing (o : Obj) : Event C T → Option T
  | (.write _ o' v, _) => if o = o' then some v else none
  | _ => none

/-- The data last written to `o`, or the contents of a new object if there are none. -/
def lastWritten [Inhabited T] (tr : List (Event C T)) (o : Obj) : T :=
  (tr.filterMap (writing o)).getLastD default

section

variable [Inhabited T]

theorem Heap.contents_makeUnique (h : Heap T) (o : Obj) :
    h.makeUnique.2.contents o = h.contents o := by
  unfold contents makeUnique
  rcases Nat.lt_or_ge o h.objects.length with hlt | hge
  · exact List.getD_append _ _ _ _ hlt
  · rw [List.getD_append_right _ _ _ _ hge, List.getD_eq_default _ _ hge]
    exact List.getElem?_getD_singleton_default_eq _ _

theorem Heap.contents_write {h : Heap T} {o : Obj} (ho : o < h.created) (v : T) (o' : Obj) :
    (h.write o v).contents o' = if o' = o then v else h.contents o' := by
  unfold contents write
  rw [List.getD_eq_getElem?_getD, List.getElem?_set, List.getD_eq_getElem?_getD]
  by_cases heq : o' = o
  · have hlen : o < h.objects.length := ho
    rw [if_pos heq.symm, if_pos hlen, if_pos heq]
    rfl
  · rw [if_neg (Ne.symm heq), if_neg heq]

theorem Heap.contents_of_le {h : Heap T} {o : Obj} (ho : h.created ≤ o) : h.contents o = default :=
  List.getD_eq_default _ _ ho

theorem Heap.read_of_lt {h : Heap T} {o : Obj} (ho : o < h.created) :
    h.read (some o) = some (h.contents o) := by
  unfold contents read
  rw [Option.bind_some, List.getD_eq_getElem _ _ ho]
  exact List.getElem?_eq_getElem ho

theorem lastWritten_concat (tr : List (Event C T)) (e : Event C T) (o : Obj) :
    lastWritten (tr ++ [e]) o = (writing o e).getD (lastWritten tr o) := by
  unfold lastWritten
  rw [List.filterMap_append]
  cases h : writing o e with
  | none => simp [h]
  | some v => simp [h]

end

variable [DecidableEq C] [Inhabited T]

/-- The contents of every object are those last written to it. -/
theorem contents_of_run {initialSize maxSize : ℕ} {tr : List (Event C T)} {s : State C T}
    (hrun : Run initialSize maxSize tr s) (o : Obj) : s.heap.contents o = lastWritten tr o := by
  revert o
  refine Path.history (I := fun tr (s : State C T) =>
    ∀ o, s.heap.contents o = lastWritten tr o) ?_ ?_ hrun
  · intro o
    rw [start_eq]
    exact List.getElem?_getD_replicate_default_eq _ _ _
  · intro tr s e t hpre ih hstep o
    rw [lastWritten_concat, ← ih o]
    have hmove := step_iff_move.1 hstep
    cases hmove with
    | allocate _ => exact s.heap.contents_makeUnique o
    | create => exact s.heap.contents_makeUnique o
    | @write c o' v howned =>
      obtain ⟨k, -, hk⟩ := custody_of_run hpre
      have hlt := hk.lt_created (hk.owned_iff.1 howned)
      rw [Heap.contents_write hlt, writing]
      split_ifs <;> rfl
    | _ => rfl

/-- `Acquire` returns an object with the contents last written to it: a new one, which has never been
written to, or one from the pool. -/
theorem acquire_contents {initialSize maxSize : ℕ} {tr : List (Event C T)} {s t : State C T}
    {c : C} {r : Result T} (hrun : Run initialSize maxSize tr s) (hstep : Step s (.acquire c, r) t) :
    ∃ o found allocated, r = .acquired (some o) (some (lastWritten tr o)) found allocated ∧
      (allocated = true → lastWritten tr o = default) ∧
      (allocated = false → some o ∈ s.memoryPool.pool) := by
  obtain ⟨k, -, hk⟩ := custody_of_run hrun
  have hmove := step_iff_move.1 hstep
  cases hmove with
  | allocate hempty =>
    have hnew : lastWritten tr s.heap.created = default := by
      rw [← contents_of_run hrun]
      exact List.getD_eq_default _ _ (Nat.le_refl _)
    exact ⟨s.heap.created, 0, true, by rw [hnew], fun _ => hnew, nofun⟩
  | @recycle _ p q hpool =>
    cases p with
    | none => exact absurd (hpool ▸ List.mem_cons_self) hk.noNull
    | some o =>
      have hpooled : some o ∈ s.memoryPool.pool := hpool ▸ List.mem_cons_self
      have hlt := hk.lt_created (hk.pooled_iff.1 hpooled)
      refine ⟨o, q.length + 1, false, ?_, nofun, fun _ => hpooled⟩
      rw [Heap.read_of_lt hlt, contents_of_run hrun]

/-- Two runs with the same calls may write different data.  Then every `Acquire` of the one returns
the same object as that of the other and takes the same branch.  An object it creates has the
contents of a new `T` in both; otherwise each run gets back the data last written to the object in
that run. -/
theorem acquire_agrees {initialSize maxSize : ℕ} {tr₁ tr₂ : List (Event C PacketBuffer)} {c : C}
    {r₁ r₂ : Result PacketBuffer} {s₁ s₂ : State C PacketBuffer}
    (hrun₁ : Run initialSize maxSize (tr₁ ++ [(.acquire c, r₁)]) s₁)
    (hrun₂ : Run initialSize maxSize (tr₂ ++ [(.acquire c, r₂)]) s₂)
    (hsame : skeleton tr₁ = skeleton tr₂) :
    ∃ o found allocated,
      r₁ = .acquired (some o) (some (lastWritten tr₁ o)) found allocated ∧
      r₂ = .acquired (some o) (some (lastWritten tr₂ o)) found allocated ∧
      (allocated = true → lastWritten tr₁ o = [] ∧ lastWritten tr₂ o = []) := by
  obtain ⟨t₁, hpre₁, hstep₁⟩ := Path.concat_iff.1 hrun₁
  obtain ⟨t₂, hpre₂, hstep₂⟩ := Path.concat_iff.1 hrun₂
  obtain ⟨o, found, allocated, rfl, hnew, -⟩ := acquire_contents hpre₁ hstep₁
  obtain ⟨o', found', allocated', rfl, hnew', -⟩ := acquire_contents hpre₂ hstep₂
  have hskeleton : skeleton (tr₁ ++ [(.acquire c, .acquired (some o)
        (some (lastWritten tr₁ o)) found allocated)]) =
      skeleton (tr₂ ++ [(.acquire c, .acquired (some o')
        (some (lastWritten tr₂ o')) found' allocated')]) := by
    simp only [skeleton, List.filterMap_append] at hsame ⊢
    rw [hsame]
    rfl
  have herased := (erased_runs_agree hrun₁ hrun₂ hskeleton).1
  simp only [eraseTrace, List.filterMap_append] at herased
  have hlast := (List.append_inj' herased rfl).2
  simp only [List.filterMap_cons, List.filterMap_nil, Action.erase, Result.erase, Option.map_some,
    List.cons.injEq, Prod.mk.injEq, Result.acquired.injEq, Option.some.injEq, and_true,
    true_and] at hlast
  obtain ⟨rfl, rfl, rfl⟩ := hlast
  exact ⟨o, found, allocated, rfl, rfl, fun h => ⟨hnew h, hnew' h⟩⟩

/-- Client 0 leaves `v` in the only buffer of the pool. -/
def leavingTrace (v : PacketBuffer) : List (Event ℕ PacketBuffer) :=
  [(.acquire 0, .acquired (some 0) (some []) 1 false),
    (.write 0 0 v, .done),
    (.release 0 (some 0), .released 0 true false)]

def foundState (v : PacketBuffer) : State ℕ PacketBuffer := ⟨⟨[], 1⟩, ⟨[v], []⟩, [(1, 0)]⟩

theorem acquire_agrees_leaving :
    ∃ o found allocated,
      Result.acquired (some 0) (some [1]) 1 false =
        .acquired (some o) (some (lastWritten (leavingTrace [1]) o)) found allocated ∧
      Result.acquired (some 0) (some [2]) 1 false =
        .acquired (some o) (some (lastWritten (leavingTrace [2]) o)) found allocated ∧
      (allocated = true →
        lastWritten (leavingTrace [1]) o = [] ∧ lastWritten (leavingTrace [2]) o = []) :=
  acquire_agrees
    (by decide : Run 1 1
      (leavingTrace [1] ++ [(.acquire 1, .acquired (some 0) (some [1]) 1 false)]) (foundState [1]))
    (by decide : Run 1 1
      (leavingTrace [2] ++ [(.acquire 1, .acquired (some 0) (some [2]) 1 false)]) (foundState [2]))
    (by decide)

/-- `Acquire` does not always return the contents of a new buffer, nor the same contents in two
runs that differ in the data written only. -/
theorem acquired_contents_differ :
    ¬ ∀ (initialSize maxSize : ℕ) (tr₁ tr₂ : List (Event ℕ PacketBuffer)) (c : ℕ)
      (p₁ p₂ : UniquePtr) (v₁ v₂ : Option PacketBuffer) (found₁ found₂ : ℕ)
      (allocated₁ allocated₂ : Bool) (s₁ s₂ : State ℕ PacketBuffer),
      Run initialSize maxSize (tr₁ ++ [(.acquire c, .acquired p₁ v₁ found₁ allocated₁)]) s₁ →
      Run initialSize maxSize (tr₂ ++ [(.acquire c, .acquired p₂ v₂ found₂ allocated₂)]) s₂ →
      skeleton tr₁ = skeleton tr₂ → v₁ = v₂ ∧ v₁ = some [] := by
  intro h
  have hdiffer := h 1 1 (leavingTrace [1]) (leavingTrace [2]) 1 (some 0) (some 0) (some [1])
    (some [2]) 1 1 false false (foundState [1]) (foundState [2]) (by decide) (by decide) (by decide)
  exact absurd hdiffer.1 (by decide)

/-! ## Clients that clean up -/

/-- Every object is as new when it is passed to `Release`. -/
def Cleaned (tr : List (Event C T)) : Prop :=
  ∀ tr₀ c o r tr₁, tr = tr₀ ++ (.release c (some o), r) :: tr₁ → lastWritten tr₀ o = default

omit [DecidableEq C] in
theorem Cleaned.of_concat {tr : List (Event C T)} {e : Event C T} (h : Cleaned (tr ++ [e])) :
    Cleaned tr := by
  rintro tr₀ c o r tr₁ rfl
  exact h tr₀ c o r (tr₁ ++ [e]) (by simp)

/-- The event releases nothing but an object that is as new after `tr`. -/
def Tidy (tr : List (Event C T)) : Event C T → Prop
  | (.release _ (some o), _) => lastWritten tr o = default
  | _ => True

instance [DecidableEq T] (tr : List (Event C T)) : (e : Event C T) → Decidable (Tidy tr e)
  | (.release _ (some o), _) => inferInstanceAs (Decidable (lastWritten tr o = default))
  | (.release _ none, _) | (.acquire _, _) | (.getPoolSize _, _) | (.create _, _)
  | (.destroy _ _, _) | (.write _ _ _, _) => inferInstanceAs (Decidable True)

omit [DecidableEq C] in
theorem cleaned_iff {tr : List (Event C T)} :
    Cleaned tr ↔ ∀ (i : ℕ) (hi : i < tr.length), Tidy (tr.take i) tr[i] := by
  constructor
  · intro h i hi
    have hsplit : tr = tr.take i ++ tr[i] :: tr.drop (i + 1) := by
      rw [← List.drop_eq_getElem_cons hi, List.take_append_drop]
    generalize tr[i] = e at hsplit
    obtain ⟨a, r⟩ := e
    cases a with
    | release c p =>
      cases p with
      | none => exact trivial
      | some o => exact h _ c o r _ hsplit
    | _ => exact trivial
  · rintro h tr₀ c o r tr₁ rfl
    simpa [Tidy] using h tr₀.length (by simp)

instance [DecidableEq T] (tr : List (Event C T)) : Decidable (Cleaned tr) :=
  decidable_of_iff _ cleaned_iff.symm

theorem pooled_as_new {initialSize maxSize : ℕ} {tr : List (Event C T)} {s : State C T}
    (hrun : Run initialSize maxSize tr s) (hclean : Cleaned tr) :
    ∀ o, some o ∈ s.memoryPool.pool → lastWritten tr o = default := by
  revert hclean
  refine Path.history (I := fun tr (s : State C T) => Cleaned tr →
    ∀ o, some o ∈ s.memoryPool.pool → lastWritten tr o = default) ?_ ?_ hrun
  · intro _ o _
    rfl
  · intro tr s e t hpre ih hstep hclean o ho
    have hpooled := ih hclean.of_concat o
    rw [lastWritten_concat]
    have hmove := step_iff_move.1 hstep
    cases hmove with
    | recycle hpool => exact hpooled (hpool ▸ List.mem_cons_of_mem _ ho)
    | @store c o' howned _ =>
      rcases List.mem_append.1 ho with hmem | hlast
      · exact hpooled hmem
      · obtain rfl := Option.some.inj (List.mem_singleton.1 hlast)
        exact hclean tr c o _ [] rfl
    | @write c o' v howned =>
      obtain ⟨k, -, hk⟩ := custody_of_run hpre
      have hne : o ≠ o' := by
        rintro rfl
        have hplace := hk.pooled_iff.1 ho
        rw [hk.owned_iff.1 howned] at hplace
        cases hplace
      rw [writing, if_neg hne]
      exact hpooled ho
    | _ => exact hpooled ho

/-- If the clients clean up before `Release`, every `Acquire` returns an object that is as new. -/
theorem acquired_as_new {initialSize maxSize : ℕ} {tr : List (Event C T)} {s t : State C T} {c : C}
    {r : Result T} (hrun : Run initialSize maxSize tr s) (hclean : Cleaned tr)
    (hstep : Step s (.acquire c, r) t) :
    ∃ o found allocated, r = .acquired (some o) (some default) found allocated := by
  obtain ⟨o, found, allocated, rfl, hnew, hpooled⟩ := acquire_contents hrun hstep
  have hdefault : lastWritten tr o = default := by
    cases allocated with
    | true => exact hnew rfl
    | false => exact pooled_as_new hrun hclean o (hpooled rfl)
  exact ⟨o, found, allocated, by rw [hdefault]⟩

end NexusCore
