import Mathlib.Data.List.Basic

/-!
# Objects and owning pointers

A `T` object is named by its place in the order of creation, so `std::make_unique` always returns
an object never seen before.  A `std::unique_ptr<T>` is such a name or null; it is destroyed with
whatever it still points to, and `std::move` leaves a null behind.  The heap keeps the contents
of every object created and the objects whose destructor has run.  Where several are destroyed at
once, their order is not modelled: that of `destroyed` means nothing.
-/

namespace NexusCore

/-- An object, by its place in the order of creation. -/
abbrev Obj := ℕ

/-- `std::unique_ptr<T>`; `none` is the null pointer. -/
abbrev UniquePtr := Option Obj

/-- `std::move(p)`: the pointer handed on, and the one left in `p`. -/
def UniquePtr.move (p : UniquePtr) : UniquePtr × UniquePtr := (p, none)

structure Heap (T : Type*) where
  /-- The contents of the objects created, in the order of creation. -/
  objects : List T
  /-- The objects destroyed, in some order. -/
  destroyed : List Obj
  deriving DecidableEq

namespace Heap

variable {T : Type*}

def empty : Heap T := ⟨[], []⟩

/-- The number of objects created so far. -/
def created (h : Heap T) : ℕ := h.objects.length

/-- `std::make_unique<T>()`: a new object with the contents of `T()`. -/
def makeUnique [Inhabited T] (h : Heap T) : UniquePtr × Heap T :=
  (some h.created, { h with objects := h.objects ++ [default] })

/-- `~unique_ptr`: destroys the object pointed to, if any. -/
def destruct (h : Heap T) (p : UniquePtr) : Heap T :=
  { h with destroyed := h.destroyed ++ p.toList }

/-- `*p`, for a pointer that is not null. -/
def read (h : Heap T) (p : UniquePtr) : Option T := p.bind fun o => h.objects[o]?

/-- `*p = v`, for a pointer to `o`. -/
def write (h : Heap T) (o : Obj) (v : T) : Heap T := { h with objects := h.objects.set o v }

@[simp] theorem destruct_none (h : Heap T) : h.destruct none = h := by
  simp [destruct]

@[simp] theorem created_makeUnique [Inhabited T] (h : Heap T) :
    h.makeUnique.2.created = h.created + 1 := by
  simp [makeUnique, created]

@[simp] theorem created_write (h : Heap T) (o : Obj) (v : T) : (h.write o v).created = h.created := by
  simp [write, created]

theorem read_makeUnique [Inhabited T] (h : Heap T) :
    h.makeUnique.2.read (some h.created) = some default := by
  simp [makeUnique, read, created]

end Heap

end NexusCore
