import Mathlib.Data.Sum.Basic
import NexusCore.Library.Blocks
import NexusCore.Library.Potential

/-!
# `SendData`

The data that a session sends are kept in a `SendData` of `Core/Session.h`, which allocates an array,
copies the caller's bytes into it, and deletes the array in its destructor.  The members are public.
The programs considered here (`Operation`) read and write the bytes of an object through them, but
leave the members themselves alone: they assign neither `data` nor `size`, and do not delete `data`.

As long as no `SendData` is copied, it behaves as a variable that holds the bytes themselves, whatever
the caller does with its own arrays, and nothing fails or leaks (`value_semantics`).  The class leaves
the copy constructor and the assignment operator to the compiler, which copy the pointer.  A program
that uses them, and leaves the members alone, cannot destroy all objects any more without deleting an
array twice (`never_shared`).  `send_queue_` keeps the objects behind `std::unique_ptr`, which copies
none.
-/

open Transition Blocks

namespace NexusCore

/-! ## The class -/

structure SendData where
  data : ℕ
  size : ℕ

namespace SendData

/-- `SendData(src, len)`, where `src` points to the byte `offset` of the block `src`.  When memory is
`full`, `new` throws and there is no object.  `memcpy` overwrites whatever the new array contains. -/
def construct (full : Bool) (m : Memory UInt8) (src offset len : ℕ) :
    Option (Option SendData × Memory UInt8) :=
  if full then some (none, m)
  else
    let (data, m) := m.alloc (List.replicate len 0)
    (m.memcpy data src offset len).map fun m => (some ⟨data, len⟩, m)

/-- `~SendData()` -/
def destruct (d : SendData) (m : Memory UInt8) : Option (Memory UInt8) := m.free d.data

end SendData

/-! ## Programs -/

variable {ι κ : Type*}

/-- What is done with the arrays `ι` of a caller and the `SendData` objects `κ`. -/
inductive Operation (ι κ : Type*) where
  /-- `b = new char[…]`, with some contents. -/
  | allocate (b : ι) (bs : List UInt8)
  /-- `b[k] = u` -/
  | fill (b : ι) (k : ℕ) (u : UInt8)
  /-- `b[k]`, for an array `b` or the array of an object, when it is `u`. -/
  | read (b : ι ⊕ κ) (k : ℕ) (u : UInt8)
  /-- `delete[] b` -/
  | delete (b : ι)
  /-- `SendData c(b + k, n)`, for an array `b` or the array of another object. -/
  | construct (c : κ) (b : ι ⊕ κ) (k n : ℕ) (full : Bool)
  /-- `c.data[k] = u` -/
  | store (c : κ) (k : ℕ) (u : UInt8)
  | destruct (c : κ)
  /-- `SendData c(c')`, by the implicit copy constructor. -/
  | copy (c c' : κ)
  /-- `c = c'`, by the implicit assignment operator. -/
  | assign (c c' : κ)

/-- Afterwards two objects have the same array. -/
def Operation.Shares : Operation ι κ → Prop
  | copy _ _ => True
  | assign c c' => c ≠ c'
  | _ => False

structure Process (ι κ : Type*) where
  memory : Memory UInt8
  arrays : ι → Option ℕ
  objects : κ → Option SendData

namespace Process

def start : Process ι κ := ⟨Memory.empty, fun _ => none, fun _ => none⟩

/-- Who has which block. -/
def own (x : Process ι κ) : ι ⊕ κ → Option ℕ := Sum.elim x.arrays (Option.map SendData.data ∘ x.objects)

end Process

variable [DecidableEq ι] [DecidableEq κ]

/-- One operation, when its result is defined. -/
inductive Process.Step : Process ι κ → Operation ι κ → Process ι κ → Prop
  | allocate {x : Process ι κ} {b : ι} {bs : List UInt8} (hnew : x.arrays b = none) :
      Step x (.allocate b bs)
        ⟨(x.memory.alloc bs).2, Function.update x.arrays b (some (x.memory.alloc bs).1), x.objects⟩
  | fill {x : Process ι κ} {b : ι} {p k : ℕ} {u : UInt8} {m : Memory UInt8}
      (hb : x.arrays b = some p) (hstore : x.memory.store p k u = some m) :
      Step x (.fill b k u) { x with memory := m }
  | read {x : Process ι κ} {b : ι ⊕ κ} {p k : ℕ} {u : UInt8} (hb : x.own b = some p)
      (hload : x.memory.load p k = some u) : Step x (.read b k u) x
  | delete {x : Process ι κ} {b : ι} {p : ℕ} {m : Memory UInt8} (hb : x.arrays b = some p)
      (hfree : x.memory.free p = some m) :
      Step x (.delete b) ⟨m, Function.update x.arrays b none, x.objects⟩
  | construct {x : Process ι κ} {c : κ} {b : ι ⊕ κ} {p k n : ℕ} {full : Bool} {bs : List UInt8}
      {d : Option SendData} {m : Memory UInt8} (hnew : x.objects c = none) (hb : x.own b = some p)
      (hsrc : x.memory.block p = some bs) (hk : k ≤ bs.length)
      (hd : SendData.construct full x.memory p k n = some (d, m)) :
      Step x (.construct c b k n full) ⟨m, x.arrays, Function.update x.objects c d⟩
  | store {x : Process ι κ} {c : κ} {d : SendData} {k : ℕ} {u : UInt8} {m : Memory UInt8}
      (hc : x.objects c = some d) (hk : k < d.size) (hstore : x.memory.store d.data k u = some m) :
      Step x (.store c k u) { x with memory := m }
  | destruct {x : Process ι κ} {c : κ} {d : SendData} {m : Memory UInt8} (hc : x.objects c = some d)
      (hfree : d.destruct x.memory = some m) :
      Step x (.destruct c) ⟨m, x.arrays, Function.update x.objects c none⟩
  | copy {x : Process ι κ} {c c' : κ} {d : SendData} (hnew : x.objects c = none)
      (hc' : x.objects c' = some d) :
      Step x (.copy c c') { x with objects := Function.update x.objects c (some d) }
  | assign {x : Process ι κ} {c c' : κ} {d d' : SendData} (hc : x.objects c = some d)
      (hc' : x.objects c' = some d') :
      Step x (.assign c c') { x with objects := Function.update x.objects c (some d') }

/-! ## Variables that hold bytes -/

structure Values (ι κ : Type*) where
  arrays : ι → Option (List UInt8)
  objects : κ → Option (List UInt8)

def Values.start : Values ι κ := ⟨fun _ => none, fun _ => none⟩

def Values.bytes (v : Values ι κ) : ι ⊕ κ → Option (List UInt8) := Sum.elim v.arrays v.objects

inductive Values.Step : Values ι κ → Operation ι κ → Values ι κ → Prop
  | allocate {v : Values ι κ} {b : ι} {bs : List UInt8} (hnew : v.arrays b = none) :
      Step v (.allocate b bs) { v with arrays := Function.update v.arrays b (some bs) }
  | fill {v : Values ι κ} {b : ι} {k : ℕ} {u : UInt8} {bs : List UInt8} (hb : v.arrays b = some bs)
      (hk : k < bs.length) :
      Step v (.fill b k u) { v with arrays := Function.update v.arrays b (some (bs.set k u)) }
  | read {v : Values ι κ} {b : ι ⊕ κ} {k : ℕ} {u : UInt8} {bs : List UInt8}
      (hb : v.bytes b = some bs) (hu : bs[k]? = some u) : Step v (.read b k u) v
  | delete {v : Values ι κ} {b : ι} {bs : List UInt8} (hb : v.arrays b = some bs) :
      Step v (.delete b) { v with arrays := Function.update v.arrays b none }
  | construct {v : Values ι κ} {c : κ} {b : ι ⊕ κ} {k n : ℕ} {bs : List UInt8}
      (hnew : v.objects c = none) (hb : v.bytes b = some bs) (hlen : k + n ≤ bs.length) :
      Step v (.construct c b k n false)
        { v with objects := Function.update v.objects c (some ((bs.drop k).take n)) }
  | refuse {v : Values ι κ} {c : κ} {b : ι ⊕ κ} {k n : ℕ} {bs : List UInt8}
      (hnew : v.objects c = none) (hb : v.bytes b = some bs) (hk : k ≤ bs.length) :
      Step v (.construct c b k n true) v
  | store {v : Values ι κ} {c : κ} {k : ℕ} {u : UInt8} {bs : List UInt8}
      (hc : v.objects c = some bs) (hk : k < bs.length) :
      Step v (.store c k u) { v with objects := Function.update v.objects c (some (bs.set k u)) }
  | destruct {v : Values ι κ} {c : κ} {bs : List UInt8} (hc : v.objects c = some bs) :
      Step v (.destruct c) { v with objects := Function.update v.objects c none }
  | copy {v : Values ι κ} {c c' : κ} {bs : List UInt8} (hnew : v.objects c = none)
      (hc' : v.objects c' = some bs) :
      Step v (.copy c c') { v with objects := Function.update v.objects c (some bs) }
  | assign {v : Values ι κ} {c c' : κ} {bs bs' : List UInt8} (hc : v.objects c = some bs)
      (hc' : v.objects c' = some bs') :
      Step v (.assign c c') { v with objects := Function.update v.objects c (some bs') }

/-- The process holds the values, and nothing else. -/
structure Process.Holds (x : Process ι κ) (v : Values ι κ) : Prop where
  exclusive : Exclusive x.own x.memory
  values : contents x.own x.memory = v.bytes
  size : ∀ c d bs, x.objects c = some d → v.objects c = some bs → bs.length = d.size

/-! ## Who has which block -/

section

variable {x : Process ι κ} {v : Values ι κ}

theorem own_update_arrays (m : Memory UInt8) (x : Process ι κ) (b : ι) (r : Option ℕ) :
    (⟨m, Function.update x.arrays b r, x.objects⟩ : Process ι κ).own =
      Function.update x.own (Sum.inl b) r :=
  Sum.update_elim_inl.symm

theorem own_update_objects (m : Memory UInt8) (x : Process ι κ) (c : κ) (r : Option SendData) :
    (⟨m, x.arrays, Function.update x.objects c r⟩ : Process ι κ).own =
      Function.update x.own (Sum.inr c) (r.map SendData.data) := by
  unfold Process.own
  rw [Function.comp_update]
  exact Sum.update_elim_inr.symm

omit [DecidableEq ι] [DecidableEq κ] in
theorem own_array {b : ι} {r : Option ℕ} (hb : x.arrays b = r) : x.own (Sum.inl b) = r := hb

omit [DecidableEq ι] [DecidableEq κ] in
theorem own_object {c : κ} {d : SendData} (hc : x.objects c = some d) :
    x.own (Sum.inr c) = some d.data := congrArg (Option.map SendData.data) hc

omit [DecidableEq ι] [DecidableEq κ] in
theorem own_object_none {c : κ} (hc : x.objects c = none) : x.own (Sum.inr c) = none :=
  congrArg (Option.map SendData.data) hc

/-- A new `SendData` has a block of its own with a copy of the bytes. -/
theorem construct_eq {m m' : Memory UInt8} {p k n : ℕ} {bs : List UInt8} {d : Option SendData}
    (hp : m.block p = some bs) (h : SendData.construct false m p k n = some (d, m')) :
    k + n ≤ bs.length ∧ d = some ⟨m.next, n⟩ ∧
      m'.block = Function.update m.block m.next (some ((bs.drop k).take n)) := by
  have hne : p ≠ m.next := by
    rintro rfl
    rw [m.fresh _ (Nat.le_refl _)] at hp
    cases hp
  obtain ⟨m'', hcopy, heq⟩ := Option.map_eq_some_iff.1 h
  cases heq
  have hsrc : (m.alloc (List.replicate n 0)).2.block p = some bs :=
    (Function.update_of_ne hne ..).trans hp
  obtain ⟨hlen, dst, hdst, hblock⟩ := Memory.memcpy_eq hsrc hcopy
  have hnew : dst = List.replicate n 0 :=
    Option.some.inj (hdst.symm.trans (Function.update_self ..))
  refine ⟨hlen, rfl, hblock.trans ?_⟩
  rw [hnew, List.drop_replicate, Nat.sub_self, List.replicate_zero, List.append_nil]
  exact Function.update_idem ..

theorem exists_construct {m : Memory UInt8} {p k n : ℕ} {bs : List UInt8}
    (hp : m.block p = some bs) (hlen : k + n ≤ bs.length) :
    ∃ d m', SendData.construct false m p k n = some (d, m') := by
  have hne : p ≠ m.next := by
    rintro rfl
    rw [m.fresh _ (Nat.le_refl _)] at hp
    cases hp
  obtain ⟨m', hm'⟩ := Memory.exists_memcpy (m := (m.alloc (List.replicate n 0)).2)
    ((Function.update_of_ne hne ..).trans hp) (Function.update_self ..) hne.symm (by simp) hlen
  exact ⟨_, m', congrArg (Option.map _) hm'⟩

/-! ## One operation -/

omit [DecidableEq ι] [DecidableEq κ] in
theorem Process.Holds.at_array (h : x.Holds v) (b : ι) :
    v.arrays b = (x.arrays b).bind x.memory.block :=
  (congrFun h.values (Sum.inl b)).symm

omit [DecidableEq ι] [DecidableEq κ] in
theorem Process.Holds.at_object (h : x.Holds v) (c : κ) :
    v.objects c = (x.objects c).bind fun d => x.memory.block d.data := by
  have hc : v.objects c = contents x.own x.memory (Sum.inr c) :=
    (congrFun h.values (Sum.inr c)).symm
  rw [hc]
  unfold contents Process.own
  rw [Sum.elim_inr, Function.comp_apply]
  cases x.objects c <;> rfl

omit [DecidableEq ι] [DecidableEq κ] in
theorem Process.Holds.at_owner (h : x.Holds v) {a : ι ⊕ κ} {p : ℕ} (ha : x.own a = some p) :
    v.bytes a = x.memory.block p := by
  rw [← h.values, contents, ha]
  rfl

/-- An array changes. -/
theorem Process.Holds.array (h : x.Holds v) {y : Process ι κ} {b : ι} {r : Option (List UInt8)}
    (hobjects : y.objects = x.objects)
    (hy : Exclusive y.own y.memory ∧
      contents y.own y.memory = Function.update (contents x.own x.memory) (Sum.inl b) r) :
    y.Holds { v with arrays := Function.update v.arrays b r } := by
  refine ⟨hy.1, ?_, fun c d bs hd => h.size c d bs (hobjects ▸ hd)⟩
  rw [hy.2, h.values]
  exact Sum.update_elim_inl

/-- An object changes. -/
theorem Process.Holds.object (h : x.Holds v) {y : Process ι κ} {c : κ} {o : Option SendData}
    {r : Option (List UInt8)} (hobjects : y.objects = Function.update x.objects c o)
    (hsize : ∀ d bs, o = some d → r = some bs → bs.length = d.size)
    (hy : Exclusive y.own y.memory ∧
      contents y.own y.memory = Function.update (contents x.own x.memory) (Sum.inr c) r) :
    y.Holds { v with objects := Function.update v.objects c r } := by
  refine ⟨hy.1, ?_, fun c' d bs hd hbs => ?_⟩
  · rw [hy.2, h.values]
    exact Sum.update_elim_inr
  · rw [hobjects] at hd
    have hbs : Function.update v.objects c r c' = some bs := hbs
    by_cases hc : c' = c
    · rw [hc, Function.update_self] at hd hbs
      exact hsize d bs hd hbs
    · rw [Function.update_of_ne hc] at hd hbs
      exact h.size c' d bs hd hbs

/-- The process does what is done to the values. -/
theorem values_step {y : Process ι κ} {op : Operation ι κ} (h : x.Holds v) (hstep : x.Step op y)
    (hop : ¬ op.Shares) : ∃ w, v.Step op w ∧ y.Holds w := by
  cases hstep with
  | @allocate b bs hnew =>
    have hv : v.arrays b = none := by
      rw [h.at_array, hnew]
      rfl
    refine ⟨_, .allocate hv, h.array rfl ?_⟩
    rw [own_update_arrays]
    exact h.exclusive.alloc (own_array hnew) rfl
  | @fill b p k u m hb hstore =>
    obtain ⟨bs, hbs, hk, hblock⟩ := Memory.store_eq hstore
    have hv : v.arrays b = some bs := by
      rw [h.at_array, hb]
      exact hbs
    exact ⟨_, .fill hv hk, h.array rfl (h.exclusive.edit (own_array hb) hblock)⟩
  | read hb hload =>
    obtain ⟨bs, hbs, hu⟩ := Option.bind_eq_some_iff.1 hload
    exact ⟨v, .read ((h.at_owner hb).trans hbs) hu, h⟩
  | @delete b p m hb hfree =>
    obtain ⟨⟨bs, hbs⟩, -⟩ := Memory.free_eq hfree
    have hv : v.arrays b = some bs := by
      rw [h.at_array, hb]
      exact hbs
    refine ⟨_, .delete hv, h.array rfl ?_⟩
    rw [own_update_arrays]
    exact h.exclusive.free (own_array hb) hfree
  | @construct c b p k n full bs d m hnew hb hsrc hk hd =>
    have hv : v.bytes b = some bs := (h.at_owner hb).trans hsrc
    have hv' : v.objects c = none := by
      rw [h.at_object, hnew]
      rfl
    cases full with
    | true =>
      cases hd
      refine ⟨v, .refuse hv' hv hk, ?_⟩
      rw [← hnew, Function.update_eq_self]
      exact h
    | false =>
      obtain ⟨hlen, rfl, hblock⟩ := construct_eq hsrc hd
      refine ⟨_, .construct hv' hv hlen, h.object rfl ?_ ?_⟩
      · rintro d bs' ⟨⟩ ⟨⟩
        rw [List.length_take, List.length_drop]
        show min n (bs.length - k) = n
        omega
      · rw [own_update_objects]
        exact h.exclusive.alloc (own_object_none hnew) hblock
  | @store c d k u m hc hk hstore =>
    obtain ⟨bs, hbs, hk, hblock⟩ := Memory.store_eq hstore
    have hv : v.objects c = some bs := by
      rw [h.at_object, hc]
      exact hbs
    have hself : x.objects = Function.update x.objects c (some d) := by
      rw [← hc, Function.update_eq_self]
    refine ⟨_, .store hv hk, h.object hself ?_ (h.exclusive.edit (own_object hc) hblock)⟩
    rintro d' bs' ⟨⟩ ⟨⟩
    rw [List.length_set]
    exact h.size c d bs hc hv
  | @destruct c d m hc hfree =>
    obtain ⟨⟨bs, hbs⟩, -⟩ := Memory.free_eq hfree
    have hv : v.objects c = some bs := by
      rw [h.at_object, hc]
      exact hbs
    refine ⟨_, .destruct hv, h.object rfl nofun ?_⟩
    rw [own_update_objects]
    exact h.exclusive.free (own_object hc) hfree
  | copy => exact absurd trivial hop
  | @assign c c' d d' hc hc' =>
    obtain rfl : c = c' := not_not.1 hop
    obtain ⟨bs, hbs⟩ := h.exclusive.live _ _ (own_object hc')
    have hv : v.objects c = some bs := by
      rw [h.at_object, hc']
      exact hbs
    refine ⟨_, .assign hv hv, ?_⟩
    rw [← hv, Function.update_eq_self, ← hc', Function.update_eq_self]
    exact h

omit [DecidableEq ι] [DecidableEq κ] in
theorem Process.Holds.object_some (h : x.Holds v) {c : κ} {bs : List UInt8}
    (hc : v.objects c = some bs) :
    ∃ d, x.objects c = some d ∧ x.memory.block d.data = some bs ∧ bs.length = d.size := by
  obtain ⟨d, hd, hbs⟩ := Option.bind_eq_some_iff.1 ((h.at_object c).symm.trans hc)
  exact ⟨d, hd, hbs, h.size c d bs hd hc⟩

omit [DecidableEq ι] [DecidableEq κ] in
theorem Process.Holds.owner_some (h : x.Holds v) {a : ι ⊕ κ} {bs : List UInt8}
    (ha : v.bytes a = some bs) : ∃ p, x.own a = some p ∧ x.memory.block p = some bs :=
  Option.bind_eq_some_iff.1 ((congrFun h.values a).trans ha)

omit [DecidableEq ι] [DecidableEq κ] in
theorem Process.Holds.array_none (h : x.Holds v) {b : ι} (hb : v.arrays b = none) :
    x.arrays b = none := by
  apply Option.eq_none_iff_forall_ne_some.2
  intro p hp
  obtain ⟨bs, hbs⟩ := h.exclusive.live (Sum.inl b) p hp
  rw [h.at_array, hp] at hb
  cases hbs.symm.trans hb

omit [DecidableEq ι] [DecidableEq κ] in
theorem Process.Holds.object_none (h : x.Holds v) {c : κ} (hc : v.objects c = none) :
    x.objects c = none := by
  apply Option.eq_none_iff_forall_ne_some.2
  intro d hd
  obtain ⟨bs, hbs⟩ := h.exclusive.live _ _ (own_object hd)
  rw [h.at_object, hd] at hc
  cases hbs.symm.trans hc

/-- What can be done to the values, the process can do. -/
theorem exists_step {w : Values ι κ} {op : Operation ι κ} (h : x.Holds v) (hstep : v.Step op w)
    (hop : ¬ op.Shares) : ∃ y, x.Step op y := by
  cases hstep with
  | allocate hnew => exact ⟨_, .allocate (h.array_none hnew)⟩
  | @fill b k u bs hb hk =>
    obtain ⟨p, hp, hbs⟩ := h.owner_some (a := .inl _) hb
    obtain ⟨m, hm⟩ := Memory.exists_store hbs hk u
    exact ⟨_, .fill hp hm⟩
  | read hb hu =>
    obtain ⟨p, hp, hbs⟩ := h.owner_some hb
    exact ⟨_, .read hp (Option.bind_eq_some_iff.2 ⟨_, hbs, hu⟩)⟩
  | delete hb =>
    obtain ⟨p, hp, hbs⟩ := h.owner_some (a := .inl _) hb
    obtain ⟨m, hm⟩ := Memory.exists_free hbs
    exact ⟨_, .delete hp hm⟩
  | construct hnew hb hlen =>
    obtain ⟨p, hp, hbs⟩ := h.owner_some hb
    obtain ⟨d, m, hd⟩ := exists_construct hbs hlen
    exact ⟨_, .construct (h.object_none hnew) hp hbs (by omega) hd⟩
  | refuse hnew hb hk =>
    obtain ⟨p, hp, hbs⟩ := h.owner_some hb
    exact ⟨_, .construct (h.object_none hnew) hp hbs hk rfl⟩
  | @store c k u bs hc hk =>
    obtain ⟨d, hd, hbs, hsize⟩ := h.object_some hc
    obtain ⟨m, hm⟩ := Memory.exists_store hbs hk u
    exact ⟨_, .store hd (hsize ▸ hk) hm⟩
  | destruct hc =>
    obtain ⟨d, hd, hbs, -⟩ := h.object_some hc
    obtain ⟨m, hm⟩ := Memory.exists_free hbs
    exact ⟨_, .destruct hd hm⟩
  | copy => exact absurd trivial hop
  | assign hc hc' =>
    obtain ⟨d, hd, -⟩ := h.object_some hc
    obtain ⟨d', hd', -⟩ := h.object_some hc'
    exact ⟨_, .assign hd hd'⟩

theorem Values.Step.unique {w w' : Values ι κ} {op : Operation ι κ} (h : v.Step op w)
    (h' : v.Step op w') : w = w' := by
  cases h with
  | allocate | delete | destruct =>
    cases h'
    rfl
  | fill hb _ =>
    cases h' with
    | fill hb' _ =>
      cases hb.symm.trans hb'
      rfl
  | construct _ hb _ =>
    cases h' with
    | construct _ hb' _ =>
      cases hb.symm.trans hb'
      rfl
  | refuse | read =>
    cases h'
    rfl
  | store hc _ =>
    cases h' with
    | store hc' _ =>
      cases hc.symm.trans hc'
      rfl
  | copy _ hc =>
    cases h' with
    | copy _ hc' =>
      cases hc.symm.trans hc'
      rfl
  | assign _ hc =>
    cases h' with
    | assign _ hc' =>
      cases hc.symm.trans hc'
      rfl

end

/-! ## Whole programs -/

variable {ops : List (Operation ι κ)} {x : Process ι κ} {v : Values ι κ}

omit [DecidableEq ι] [DecidableEq κ] in
theorem own_start : (Process.start : Process ι κ).own = fun _ => none := by
  funext a
  cases a <;> rfl

omit [DecidableEq ι] [DecidableEq κ] in
theorem holds_start : (Process.start : Process ι κ).Holds Values.start := by
  refine ⟨?_, ?_, nofun⟩
  · rw [own_start]
    exact exclusive_empty
  · rw [own_start]
    funext a
    cases a <;> rfl

omit [DecidableEq ι] [DecidableEq κ] in
theorem Process.Holds.unique {v' : Values ι κ} (h : x.Holds v) (h' : x.Holds v') : v = v' := by
  obtain ⟨harrays, hobjects⟩ := Sum.elim_eq_iff.1 (h.values.symm.trans h'.values)
  cases v
  cases v'
  exact congrArg₂ Values.mk harrays hobjects

theorem values_of_path (h : Path Process.Step Process.start ops x)
    (hops : ∀ op ∈ ops, ¬ op.Shares) :
    ∃ v, Path Values.Step Values.start ops v ∧ x.Holds v := by
  revert hops
  refine Path.history (I := fun ops (x : Process ι κ) => (∀ op ∈ ops, ¬ op.Shares) →
    ∃ v, Path Values.Step Values.start ops v ∧ x.Holds v) ?_ ?_ h
  · exact fun _ => ⟨_, .nil _, holds_start⟩
  · intro ops x op y _ ih hstep hops
    obtain ⟨hpre, hlast⟩ := List.forall_mem_append.1 hops
    obtain ⟨v, hpath, hv⟩ := ih hpre
    obtain ⟨w, hw, hy⟩ := values_step hv hstep (hlast op List.mem_cons_self)
    exact ⟨w, Path.concat_iff.2 ⟨v, hpath, hw⟩, hy⟩

theorem path_of_values (h : Path Values.Step Values.start ops v)
    (hops : ∀ op ∈ ops, ¬ op.Shares) :
    ∃ x, Path Process.Step Process.start ops x ∧ x.Holds v := by
  revert hops
  refine Path.history (I := fun ops (v : Values ι κ) => (∀ op ∈ ops, ¬ op.Shares) →
    ∃ x, Path Process.Step Process.start ops x ∧ x.Holds v) ?_ ?_ h
  · exact fun _ => ⟨_, .nil _, holds_start⟩
  · intro ops v op w _ ih hstep hops
    obtain ⟨hpre, hlast⟩ := List.forall_mem_append.1 hops
    obtain ⟨x, hpath, hx⟩ := ih hpre
    obtain ⟨y, hy⟩ := exists_step hx hstep (hlast op List.mem_cons_self)
    obtain ⟨w', hw', hy'⟩ := values_step hx hy (hlast op List.mem_cons_self)
    rw [hstep.unique hw']
    exact ⟨y, Path.concat_iff.2 ⟨x, hpath, hy⟩, hy'⟩

/-- Two bytes are sent, and the caller deletes its array before they are read and the `SendData` is
destroyed.  For another object with the same bytes there is no memory. -/
def sendOps : List (Operation ℕ ℕ) :=
  [.allocate 0 [1, 2, 3], .construct 0 (.inl 0) 1 2 false, .construct 1 (.inr 0) 0 2 true,
    .fill 0 1 9, .delete 0, .read (.inr 0) 0 2]

theorem values_send :
    Path Values.Step Values.start sendOps
      ⟨fun _ => none, Function.update (fun _ => none) 0 (some [2, 3])⟩ := by
  refine .cons (.allocate rfl) (.cons (.construct rfl rfl (by decide)) (.cons
    (.refuse rfl rfl (by decide)) (.cons (.fill rfl (by decide)) (.cons (.delete rfl)
    (.cons (.read rfl rfl) ?_)))))
  rw [Path.nil_iff]
  simp [Values.start]

/-- The objects that the copy constructor makes. -/
def Operation.copied : Operation ι κ → ℕ
  | copy _ _ => 1
  | _ => 0

theorem construct_block {m m' : Memory UInt8} {p k n : ℕ} {full : Bool} {d : Option SendData}
    (h : SendData.construct full m p k n = some (d, m')) :
    (d = none ∧ m' = m) ∨ d = some ⟨m.next, n⟩ ∧
      ∃ bs, m'.block = Function.update m.block m.next (some bs) := by
  cases full with
  | true =>
    cases h
    exact Or.inl ⟨rfl, rfl⟩
  | false =>
    obtain ⟨m'', hcopy, heq⟩ := Option.map_eq_some_iff.1 h
    cases heq
    obtain ⟨bs, hblock⟩ := Memory.memcpy_block hcopy
    exact Or.inr ⟨rfl, bs, hblock.trans (Function.update_idem ..)⟩

/-- Every operation brings as many blocks as pointers, but the copy constructor only a pointer. -/
theorem count_step {y : Process ι κ} {op : Operation ι κ} {n k : ℕ}
    (hn : Defined x.memory.block n) (hk : Defined x.own k) (hstep : x.Step op y) :
    ∃ n' k', Defined y.memory.block n' ∧ Defined y.own k' ∧ k' + n = k + n' + op.copied := by
  have hnext : x.memory.block x.memory.next = none := x.memory.fresh _ (Nat.le_refl _)
  cases hstep with
  | @allocate b bs hnew =>
    refine ⟨n + 1, k + 1, hn.insert hnext bs, ?_, by simp only [Operation.copied]; omega⟩
    rw [own_update_arrays]
    exact hk.insert (own_array hnew) _
  | fill hb hstore =>
    obtain ⟨bs, hbs, -, hblock⟩ := Memory.store_eq hstore
    exact ⟨n, k, hblock ▸ hn.replace hbs _, hk, rfl⟩
  | read => exact ⟨n, k, hn, hk, rfl⟩
  | delete hb hfree =>
    obtain ⟨⟨bs, hbs⟩, hblock⟩ := Memory.free_eq hfree
    obtain ⟨n', hn', rfl⟩ := hn.erase hbs
    obtain ⟨k', hk', rfl⟩ := hk.erase (own_array hb)
    refine ⟨n', k', hblock ▸ hn', ?_, by simp only [Operation.copied]; omega⟩
    rw [own_update_arrays]
    exact hk'
  | construct hnew _ _ _ hd =>
    rcases construct_block hd with ⟨rfl, rfl⟩ | ⟨rfl, bs, hblock⟩
    · refine ⟨n, k, hn, ?_, rfl⟩
      rw [← hnew, Function.update_eq_self]
      exact hk
    · refine ⟨n + 1, k + 1, hblock ▸ hn.insert hnext bs, ?_, by simp only [Operation.copied]; omega⟩
      rw [own_update_objects]
      exact hk.insert (own_object_none hnew) _
  | store hc _ hstore =>
    obtain ⟨bs, hbs, -, hblock⟩ := Memory.store_eq hstore
    exact ⟨n, k, hblock ▸ hn.replace hbs _, hk, rfl⟩
  | destruct hc hfree =>
    obtain ⟨⟨bs, hbs⟩, hblock⟩ := Memory.free_eq hfree
    obtain ⟨n', hn', rfl⟩ := hn.erase hbs
    obtain ⟨k', hk', rfl⟩ := hk.erase (own_object hc)
    refine ⟨n', k', hblock ▸ hn', ?_, by simp only [Operation.copied]; omega⟩
    rw [own_update_objects]
    exact hk'
  | copy hnew hc =>
    refine ⟨n, k + 1, hn, ?_, by simp only [Operation.copied]; omega⟩
    rw [own_update_objects]
    exact hk.insert (own_object_none hnew) _
  | assign hc hc' =>
    refine ⟨n, k, hn, ?_, rfl⟩
    rw [own_update_objects]
    exact hk.replace (own_object hc) _

theorem count_of_path (h : Path Process.Step Process.start ops x) :
    ∃ n, Defined x.memory.block n ∧ Defined x.own (n + (ops.map Operation.copied).sum) := by
  refine Path.history (I := fun ops (x : Process ι κ) => ∃ n, Defined x.memory.block n ∧
    Defined x.own (n + (ops.map Operation.copied).sum)) ?_ ?_ h
  · refine ⟨0, defined_none, ?_⟩
    rw [own_start]
    exact defined_none
  · intro ops x op y _ ih hstep
    obtain ⟨n, hn, hk⟩ := ih
    obtain ⟨n', k', hn', hk', hsum⟩ := count_step hn hk hstep
    refine ⟨n', hn', ?_⟩
    have heq : k' = n' + ((ops ++ [op]).map Operation.copied).sum := by
      rw [List.map_append, List.sum_append, List.map_singleton, List.sum_singleton]
      omega
    exact heq ▸ hk'

theorem lost_step {y : Process ι κ} {op : Operation ι κ} {p : ℕ} (h : Lost x.own x.memory p)
    (hstep : x.Step op y) : Lost y.own y.memory p := by
  cases hstep with
  | @allocate b bs hnew =>
    refine h.change ?_ h.ne_next rfl
    rw [own_update_arrays]
    exact h.update _ fun heq => h.ne_next (Option.some.inj heq)
  | fill hb hstore =>
    obtain ⟨bs, -, -, hblock⟩ := Memory.store_eq hstore
    exact h.change h.2 (h.ne (own_array hb)) hblock
  | read => exact h
  | delete hb hfree =>
    obtain ⟨-, hblock⟩ := Memory.free_eq hfree
    refine h.change ?_ (h.ne (own_array hb)) hblock
    rw [own_update_arrays]
    exact h.update _ nofun
  | construct hnew _ _ _ hd =>
    rcases construct_block hd with ⟨rfl, rfl⟩ | ⟨rfl, bs, hblock⟩
    · rw [← hnew, Function.update_eq_self]
      exact h
    · refine h.change ?_ h.ne_next hblock
      rw [own_update_objects]
      exact h.update _ fun heq => h.ne_next (Option.some.inj heq)
  | store hc _ hstore =>
    obtain ⟨bs, -, -, hblock⟩ := Memory.store_eq hstore
    exact h.change h.2 (h.ne (own_object hc)) hblock
  | destruct hc hfree =>
    obtain ⟨-, hblock⟩ := Memory.free_eq hfree
    refine h.change ?_ (h.ne (own_object hc)) hblock
    rw [own_update_objects]
    exact h.update _ nofun
  | copy _ hc | assign _ hc =>
    refine ⟨h.1, ?_⟩
    rw [own_update_objects]
    exact h.update _ fun heq => h.ne (own_object hc) (Option.some.inj heq)

/-- A program that lets two objects share an array has made a copy, or has lost a block. -/
theorem shares_of_path (h : Path Process.Step Process.start ops x) :
    (∀ op ∈ ops, ¬ op.Shares) ∨ 0 < (ops.map Operation.copied).sum ∨
      ∃ p, Lost x.own x.memory p := by
  refine Path.history (I := fun ops (x : Process ι κ) => (∀ op ∈ ops, ¬ op.Shares) ∨
    0 < (ops.map Operation.copied).sum ∨ ∃ p, Lost x.own x.memory p) ?_ ?_ h
  · exact Or.inl fun _ hmem => absurd hmem List.not_mem_nil
  · intro ops x op y hpre ih hstep
    rw [List.map_append, List.sum_append, List.map_singleton, List.sum_singleton]
    rcases ih with hops | hcopied | ⟨p, hlost⟩
    · by_cases hop : op.Shares
      · obtain ⟨v, -, hv⟩ := values_of_path hpre hops
        cases hstep with
        | copy => exact Or.inr (Or.inl (Nat.lt_add_left _ Nat.one_pos))
        | @assign c c' d d' hc hc' =>
          refine Or.inr (Or.inr ⟨d.data, ?_⟩)
          rw [own_update_objects]
          refine hv.exclusive.lost (own_object hc) fun heq => ?_
          have hdistinct := hv.exclusive.distinct _ _ _ ((own_object hc').trans heq) (own_object hc)
          exact hop (Sum.inr_injective hdistinct).symm
        | _ => exact absurd hop id
      · exact Or.inl (List.forall_mem_append.2 ⟨hops, List.forall_mem_singleton.2 hop⟩)
    · exact Or.inr (Or.inl (Nat.lt_add_right _ hcopied))
    · exact Or.inr (Or.inr ⟨p, lost_step hlost hstep⟩)

/-- A program that has got rid of all its arrays and objects, with every operation defined, has never
let two objects share an array, and has freed all blocks: it has made no object by the copy
constructor, and assigned none from another. -/
theorem never_shared (h : Path Process.Step Process.start ops x) (harrays : ∀ b, x.arrays b = none)
    (hobjects : ∀ c, x.objects c = none) :
    (∀ op ∈ ops, ¬ op.Shares) ∧ ∀ p, x.memory.block p = none := by
  obtain ⟨n, hn, hk⟩ := count_of_path h
  have hown : ∀ a, x.own a = none := by
    intro a
    cases a with
    | inl b => exact own_array (harrays b)
    | inr c => exact own_object_none (hobjects c)
  have hzero := hk.eq_zero hown
  have hblock : ∀ p, x.memory.block p = none := by
    intro p
    cases hp : x.memory.block p with
    | none => rfl
    | some bs =>
      have hpos := hn.pos hp
      omega
  refine ⟨?_, hblock⟩
  rcases shares_of_path h with hops | hcopied | ⟨p, ⟨bs, hbs⟩, -⟩
  · exact hops
  · omega
  · rw [hblock p] at hbs
    cases hbs

theorem path_send : ∃ x : Process ℕ ℕ,
    Path Process.Step Process.start (sendOps ++ [.destruct 0]) x ∧ (∀ b, x.arrays b = none) ∧
      ∀ c, x.objects c = none := by
  refine ⟨_, .cons (.allocate rfl) (.cons (.construct rfl rfl rfl (by decide) rfl)
    (.cons (.construct rfl rfl rfl (by decide) rfl) (.cons (.fill rfl rfl) (.cons (.delete rfl rfl)
    (.cons (.read rfl rfl) (.cons (.destruct rfl rfl) (.nil _))))))), fun b => ?_, fun c => ?_⟩
  · by_cases hb : b = 0 <;> simp [hb, Process.start]
  · by_cases hc : c = 0 <;> by_cases hc' : c = 1 <;> simp [hc, hc', Process.start]

theorem never_shared_send : ∃ x : Process ℕ ℕ,
    Path Process.Step Process.start (sendOps ++ [.destruct 0]) x ∧
      (∀ op ∈ sendOps ++ [.destruct 0], ¬ op.Shares) ∧ ∀ p, x.memory.block p = none := by
  obtain ⟨x, hpath, harrays, hobjects⟩ := path_send
  exact ⟨x, hpath, never_shared hpath harrays hobjects⟩

end NexusCore
