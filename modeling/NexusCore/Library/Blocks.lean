import Mathlib.Data.Nat.Notation
import Mathlib.Logic.Function.Basic

/-!
# Memory in blocks

A block is allocated with some contents and freed as a whole.  It is named by the number of blocks
allocated before it.  To free a block that is not live, or to read or write where there is none, has no
defined result.

Owners hold pointers to blocks.  They are *exclusive* when every live block has one owner and every
owner a live block.  Then none of the operations fails, and they act on the owners' contents as on
variables that hold the contents themselves (`Exclusive.alloc`, `Exclusive.free`, `Exclusive.edit`).
A block that no owner points to can never be freed again (`Lost`).
-/

namespace Blocks

variable {α β : Type*}

structure Memory (β : Type*) where
  /-- The number of blocks allocated so far. -/
  next : ℕ
  /-- The contents of the live blocks. -/
  block : ℕ → Option (List β)
  fresh : ∀ p, next ≤ p → block p = none

namespace Memory

def empty : Memory β := ⟨0, fun _ => none, fun _ _ => rfl⟩

def alloc (m : Memory β) (bs : List β) : ℕ × Memory β :=
  (m.next, ⟨m.next + 1, Function.update m.block m.next (some bs), fun p hp => by
    rw [Function.update_of_ne (by omega)]
    exact m.fresh p (by omega)⟩)

/-- The block `p`, which is live, gets other contents, or is freed. -/
def change (m : Memory β) (p : ℕ) (hlive : (m.block p).isSome = true) (r : Option (List β)) :
    Memory β :=
  ⟨m.next, Function.update m.block p r, fun q hq => by
    have hnone := m.fresh q hq
    rw [Function.update_of_ne, hnone]
    rintro rfl
    rw [hnone] at hlive
    cases hlive⟩

def free (m : Memory β) (p : ℕ) : Option (Memory β) :=
  if hlive : (m.block p).isSome = true then some (m.change p hlive none) else none

def edit (m : Memory β) (p : ℕ) (f : List β → Option (List β)) : Option (Memory β) :=
  if hlive : (m.block p).isSome = true then
    (f ((m.block p).get hlive)).map fun bs => m.change p hlive (some bs)
  else none

/-- `p[i]` -/
def load (m : Memory β) (p i : ℕ) : Option β := (m.block p).bind fun bs => bs[i]?

/-- `p[i] = v` -/
def store (m : Memory β) (p i : ℕ) (v : β) : Option (Memory β) :=
  m.edit p fun bs => if i < bs.length then some (bs.set i v) else none

/-- `memcpy(p, q + k, n)` -/
def memcpy (m : Memory β) (p q k n : ℕ) : Option (Memory β) :=
  match m.block q with
  | none => none
  | some src => m.edit p fun dst =>
    if p ≠ q ∧ n ≤ dst.length ∧ k + n ≤ src.length then
      some ((src.drop k).take n ++ dst.drop n)
    else none

variable {m m' : Memory β} {p : ℕ} {bs bs' : List β} {f : List β → Option (List β)}

theorem free_eq (h : m.free p = some m') :
    (∃ bs, m.block p = some bs) ∧ m'.block = Function.update m.block p none := by
  unfold free at h
  by_cases hlive : (m.block p).isSome = true
  · rw [dif_pos hlive] at h
    cases h
    exact ⟨Option.isSome_iff_exists.1 hlive, rfl⟩
  · rw [dif_neg hlive] at h
    cases h

theorem exists_free (h : m.block p = some bs) : ∃ m', m.free p = some m' :=
  ⟨_, dif_pos (by rw [h]; rfl)⟩

theorem edit_eq (h : m.edit p f = some m') :
    ∃ bs bs', m.block p = some bs ∧ f bs = some bs' ∧
      m'.block = Function.update m.block p (some bs') := by
  unfold edit at h
  by_cases hlive : (m.block p).isSome = true
  · rw [dif_pos hlive] at h
    obtain ⟨bs', hf, rfl⟩ := Option.map_eq_some_iff.1 h
    exact ⟨_, bs', (Option.some_get hlive).symm, hf, rfl⟩
  · rw [dif_neg hlive] at h
    cases h

theorem exists_edit (h : m.block p = some bs) (hf : f bs = some bs') :
    ∃ m', m.edit p f = some m' := by
  have hlive : (m.block p).isSome = true := by
    rw [h]
    rfl
  have hget : (m.block p).get hlive = bs := by simp [h]
  refine ⟨m.change p hlive (some bs'), ?_⟩
  rw [edit, dif_pos hlive, hget, hf]
  rfl

theorem store_eq {i : ℕ} {v : β} (h : m.store p i v = some m') :
    ∃ bs, m.block p = some bs ∧ i < bs.length ∧
      m'.block = Function.update m.block p (some (bs.set i v)) := by
  obtain ⟨bs, bs', hbs, hset, hblock⟩ := edit_eq h
  by_cases hi : i < bs.length
  · rw [if_pos hi] at hset
    cases hset
    exact ⟨bs, hbs, hi, hblock⟩
  · rw [if_neg hi] at hset
    cases hset

theorem exists_store {i : ℕ} (h : m.block p = some bs) (hi : i < bs.length) (v : β) :
    ∃ m', m.store p i v = some m' :=
  exists_edit h (if_pos hi)

theorem memcpy_block {q k n : ℕ} (h : m.memcpy p q k n = some m') :
    ∃ bs, m'.block = Function.update m.block p (some bs) := by
  unfold memcpy at h
  cases hq : m.block q with
  | none =>
    rw [hq] at h
    cases h
  | some src =>
    rw [hq] at h
    obtain ⟨-, bs, -, -, hblock⟩ := edit_eq h
    exact ⟨bs, hblock⟩

theorem memcpy_eq {q k n : ℕ} {src : List β} (hq : m.block q = some src)
    (h : m.memcpy p q k n = some m') :
    k + n ≤ src.length ∧ ∃ dst, m.block p = some dst ∧
      m'.block = Function.update m.block p (some ((src.drop k).take n ++ dst.drop n)) := by
  unfold memcpy at h
  rw [hq] at h
  obtain ⟨dst, bs', hdst, hcopy, hblock⟩ := edit_eq h
  by_cases hfits : p ≠ q ∧ n ≤ dst.length ∧ k + n ≤ src.length
  · rw [if_pos hfits] at hcopy
    cases hcopy
    exact ⟨hfits.2.2, dst, hdst, hblock⟩
  · rw [if_neg hfits] at hcopy
    cases hcopy

theorem exists_memcpy {q k n : ℕ} {src dst : List β} (hq : m.block q = some src)
    (hp : m.block p = some dst) (hne : p ≠ q) (hn : n ≤ dst.length) (hkn : k + n ≤ src.length) :
    ∃ m', m.memcpy p q k n = some m' := by
  unfold memcpy
  rw [hq]
  exact exists_edit hp (if_pos ⟨hne, hn, hkn⟩)

end Memory

/-! ## Owners -/

/-- Every owner has a live block, every live block one owner. -/
structure Exclusive (own : α → Option ℕ) (m : Memory β) : Prop where
  live : ∀ a p, own a = some p → ∃ bs, m.block p = some bs
  distinct : ∀ a a' p, own a = some p → own a' = some p → a = a'
  owned : ∀ p bs, m.block p = some bs → ∃ a, own a = some p

/-- What the owners' blocks contain. -/
def contents (own : α → Option ℕ) (m : Memory β) (a : α) : Option (List β) := (own a).bind m.block

/-- The block is live, and nobody owns it. -/
def Lost (own : α → Option ℕ) (m : Memory β) (p : ℕ) : Prop :=
  (∃ bs, m.block p = some bs) ∧ ∀ a, own a ≠ some p

variable {own : α → Option ℕ} {m m' : Memory β} {a : α} {p : ℕ} {bs : List β}

theorem exclusive_empty : Exclusive (fun _ : α => none) (Memory.empty (β := β)) :=
  ⟨nofun, nofun, nofun⟩

theorem Exclusive.lt_next (h : Exclusive own m) (ha : own a = some p) : p < m.next := by
  obtain ⟨bs, hbs⟩ := h.live a p ha
  by_contra hge
  rw [m.fresh p (by omega)] at hbs
  cases hbs

section

variable [DecidableEq α]

/-- A new owner gets a new block. -/
theorem Exclusive.alloc (h : Exclusive own m) (ha : own a = none)
    (hblock : m'.block = Function.update m.block m.next (some bs)) :
    Exclusive (Function.update own a (some m.next)) m' ∧
      contents (Function.update own a (some m.next)) m' =
        Function.update (contents own m) a (some bs) := by
  have hne : ∀ {a' p}, own a' = some p → p ≠ m.next := fun ha' => Nat.ne_of_lt (h.lt_next ha')
  refine ⟨⟨fun a' p ha' => ?_, fun a₁ a₂ p ha₁ ha₂ => ?_, fun p bs' hp => ?_⟩, funext fun a' => ?_⟩
  · rw [hblock]
    by_cases haa : a' = a
    · rw [haa, Function.update_self] at ha'
      cases ha'
      exact ⟨bs, Function.update_self ..⟩
    · rw [Function.update_of_ne haa] at ha'
      rw [Function.update_of_ne (hne ha')]
      exact h.live a' p ha'
  · by_cases haa₁ : a₁ = a <;> by_cases haa₂ : a₂ = a
    · rw [haa₁, haa₂]
    · rw [haa₁, Function.update_self] at ha₁
      rw [Function.update_of_ne haa₂] at ha₂
      cases ha₁
      exact absurd rfl (hne ha₂)
    · rw [haa₂, Function.update_self] at ha₂
      rw [Function.update_of_ne haa₁] at ha₁
      cases ha₂
      exact absurd rfl (hne ha₁)
    · rw [Function.update_of_ne haa₁] at ha₁
      rw [Function.update_of_ne haa₂] at ha₂
      exact h.distinct a₁ a₂ p ha₁ ha₂
  · rw [hblock] at hp
    by_cases hpn : p = m.next
    · exact ⟨a, by rw [hpn, Function.update_self]⟩
    · rw [Function.update_of_ne hpn] at hp
      obtain ⟨a', ha'⟩ := h.owned p bs' hp
      refine ⟨a', ?_⟩
      rw [Function.update_of_ne, ha']
      rintro rfl
      rw [ha] at ha'
      cases ha'
  · by_cases haa : a' = a
    · rw [haa, Function.update_self, contents, Function.update_self, hblock]
      exact Function.update_self ..
    · rw [Function.update_of_ne haa, contents, contents, Function.update_of_ne haa, hblock]
      cases ha' : own a' with
      | none => rfl
      | some p => exact Function.update_of_ne (hne ha') ..

/-- The owner of a block gives it up and frees it. -/
theorem Exclusive.free (h : Exclusive own m) (ha : own a = some p) (hfree : m.free p = some m') :
    Exclusive (Function.update own a none) m' ∧
      contents (Function.update own a none) m' = Function.update (contents own m) a none := by
  obtain ⟨-, hblock⟩ := Memory.free_eq hfree
  have hold : ∀ {a' p'}, Function.update own a none a' = some p' → own a' = some p' ∧ p' ≠ p := by
    intro a' p' ha'
    by_cases haa : a' = a
    · rw [haa, Function.update_self] at ha'
      cases ha'
    · rw [Function.update_of_ne haa] at ha'
      refine ⟨ha', ?_⟩
      rintro rfl
      exact haa (h.distinct a' a p' ha' ha)
  refine ⟨⟨fun a' p' ha' => ?_, fun a₁ a₂ p' ha₁ ha₂ => ?_, fun p' bs' hp' => ?_⟩,
    funext fun a' => ?_⟩
  · obtain ⟨hown, hne⟩ := hold ha'
    rw [hblock, Function.update_of_ne hne]
    exact h.live a' p' hown
  · exact h.distinct a₁ a₂ p' (hold ha₁).1 (hold ha₂).1
  · rw [hblock] at hp'
    by_cases hpp : p' = p
    · rw [hpp, Function.update_self] at hp'
      cases hp'
    · rw [Function.update_of_ne hpp] at hp'
      obtain ⟨a', ha'⟩ := h.owned p' bs' hp'
      refine ⟨a', ?_⟩
      rw [Function.update_of_ne, ha']
      rintro rfl
      exact hpp (Option.some.inj (ha'.symm.trans ha))
  · by_cases haa : a' = a
    · rw [haa, Function.update_self, contents, Function.update_self]
      rfl
    · rw [Function.update_of_ne haa, contents, contents, Function.update_of_ne haa, hblock]
      cases ha' : own a' with
      | none => rfl
      | some p' =>
        refine Function.update_of_ne ?_ ..
        rintro rfl
        exact haa (h.distinct a' a p' ha' ha)

/-- The owner of a block changes its contents. -/
theorem Exclusive.edit (h : Exclusive own m) (ha : own a = some p)
    (hblock : m'.block = Function.update m.block p (some bs)) :
    Exclusive own m' ∧ contents own m' = Function.update (contents own m) a (some bs) := by
  refine ⟨⟨fun a' p' ha' => ?_, h.distinct, fun p' bs' hp' => ?_⟩, funext fun a' => ?_⟩
  · rw [hblock]
    by_cases hpp : p' = p
    · exact ⟨bs, by rw [hpp, Function.update_self]⟩
    · rw [Function.update_of_ne hpp]
      exact h.live a' p' ha'
  · rw [hblock] at hp'
    by_cases hpp : p' = p
    · exact ⟨a, hpp ▸ ha⟩
    · rw [Function.update_of_ne hpp] at hp'
      exact h.owned p' bs' hp'
  · by_cases haa : a' = a
    · rw [haa, Function.update_self, contents, ha, hblock]
      exact Function.update_self ..
    · rw [Function.update_of_ne haa, contents, contents, hblock]
      cases ha' : own a' with
      | none => rfl
      | some p' =>
        refine Function.update_of_ne ?_ ..
        rintro rfl
        exact haa (h.distinct a' a p' ha' ha)

end

/-! ## Lost blocks -/

section

variable {own' : α → Option ℕ} {q : ℕ} {r : Option (List β)}

theorem Lost.ne (h : Lost own m p) (ha : own a = some q) : q ≠ p := by
  rintro rfl
  exact h.2 a ha

theorem Lost.ne_next (h : Lost own m p) : m.next ≠ p := by
  rintro rfl
  obtain ⟨bs, hbs⟩ := h.1
  rw [m.fresh _ (Nat.le_refl _)] at hbs
  cases hbs

/-- Whatever happens to other blocks, a lost block stays lost. -/
theorem Lost.change (h : Lost own m p) (hown : ∀ a, own' a ≠ some p) (hq : q ≠ p)
    (hblock : m'.block = Function.update m.block q r) : Lost own' m' p := by
  refine ⟨?_, hown⟩
  rw [hblock, Function.update_of_ne hq.symm]
  exact h.1

theorem Lost.update [DecidableEq α] (h : Lost own m p) (a : α) {r : Option ℕ} (hr : r ≠ some p) :
    ∀ a', Function.update own a r a' ≠ some p :=
  (Function.forall_update_iff own fun _ r => r ≠ some p).2 ⟨hr, fun a' _ => h.2 a'⟩

/-- An owner that forgets its block loses it. -/
theorem Exclusive.lost [DecidableEq α] (h : Exclusive own m) (ha : own a = some p) {r : Option ℕ}
    (hr : r ≠ some p) : Lost (Function.update own a r) m p := by
  refine ⟨h.live a p ha, (Function.forall_update_iff own fun _ r => r ≠ some p).2
    ⟨hr, fun a' hne ha' => ?_⟩⟩
  exact hne (h.distinct a' a p ha' ha)

end

end Blocks
