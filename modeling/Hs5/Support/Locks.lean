import Mathlib.Data.List.Nodup
import Mathlib.Data.Set.Basic
import Mathlib.Logic.Function.Basic
import Mathlib.Data.Nat.Notation

/-!
# Locks and deadlocks

A `SharedMutex` is held by one thread alone or shared by several.  `Within`
ties the threads a mutex lists to where the threads are in their programs;
each operation of the mutex keeps it.
-/

namespace Locks

variable {τ Λ : Type*}

inductive Mode where
  | exclusive
  | shared
  deriving DecidableEq

structure SharedMutex (τ : Type*) where
  owner : Option τ
  readers : List τ

namespace SharedMutex

def free : SharedMutex τ := ⟨none, []⟩

def tryLock (m : SharedMutex τ) (t : τ) : Option (SharedMutex τ) :=
  if m.owner.isNone ∧ m.readers.isEmpty then some ⟨some t, []⟩ else none

def tryLockShared (m : SharedMutex τ) (t : τ) : Option (SharedMutex τ) :=
  if m.owner.isNone then some { m with readers := t :: m.readers } else none

def unlock (m : SharedMutex τ) : SharedMutex τ := { m with owner := none }

def unlockShared [DecidableEq τ] (m : SharedMutex τ) (t : τ) :
    SharedMutex τ :=
  { m with readers := m.readers.erase t }

def Holds (m : SharedMutex τ) (t : τ) : Prop := m.owner = some t ∨ t ∈ m.readers

/-- Threads that hold the mutex are where they hold it by `mode`. -/
structure Within (m : SharedMutex τ) (mode : τ → Option Mode) : Prop where
  owner : ∀ t, m.owner = some t → mode t = some .exclusive
  readers : ∀ t ∈ m.readers, mode t = some .shared
  nodup : m.readers.Nodup

variable {m m' : SharedMutex τ} {mode : τ → Option Mode} {t : τ}

theorem Within.holds (h : m.Within mode) (ht : m.Holds t) : mode t ≠ none := by
  rcases ht with howner | hreader
  · rw [h.owner t howner]
    exact Option.some_ne_none _
  · rw [h.readers t hreader]
    exact Option.some_ne_none _

theorem within_free (mode : τ → Option Mode) : free.Within mode where
  owner _ h := by cases h
  readers _ h := by cases h
  nodup := List.nodup_nil

variable [DecidableEq τ]

theorem Within.tryLock (hlock : m.tryLock t = some m') :
    m'.Within (Function.update mode t (some .exclusive)) := by
  unfold SharedMutex.tryLock at hlock
  split at hlock
  · cases hlock
    refine ⟨?_, ?_, List.nodup_nil⟩
    · intro u hu
      cases hu
      exact Function.update_self ..
    · intro u hu
      cases hu
  · cases hlock

theorem Within.tryLockShared (h : m.Within mode) (ht : mode t = none)
    (hlock : m.tryLockShared t = some m') :
    m'.Within (Function.update mode t (some .shared)) := by
  unfold SharedMutex.tryLockShared at hlock
  split at hlock
  · rename_i hfree
    cases hlock
    have hnew : t ∉ m.readers := by
      intro hmem
      rw [h.readers t hmem] at ht
      cases ht
    refine ⟨?_, ?_, List.nodup_cons.mpr ⟨hnew, h.nodup⟩⟩
    · intro u hu
      have hnone : m.owner = none := Option.isNone_iff_eq_none.mp hfree
      rw [show m.owner = some u from hu] at hnone
      cases hnone
    · intro u hu
      by_cases hut : u = t
      · rw [hut, Function.update_self]
      · rw [Function.update_of_ne hut]
        exact h.readers u (List.mem_of_ne_of_mem hut hu)
  · cases hlock

theorem Within.unlock (h : m.Within mode) (ht : mode t = some .exclusive) :
    m.unlock.Within (Function.update mode t none) := by
  refine ⟨?_, ?_, h.nodup⟩
  · intro u hu
    cases hu
  · intro u hu
    have hreader := h.readers u hu
    have hut : u ≠ t := by
      rintro rfl
      rw [ht] at hreader
      cases hreader
    rwa [Function.update_of_ne hut]

theorem Within.unlockShared (h : m.Within mode) (ht : mode t = some .shared) :
    (m.unlockShared t).Within (Function.update mode t none) := by
  refine ⟨?_, ?_, h.nodup.erase t⟩
  · intro u hu
    have howner := h.owner u hu
    have hut : u ≠ t := by
      rintro rfl
      rw [ht] at howner
      cases howner
    rwa [Function.update_of_ne hut]
  · intro u hu
    obtain ⟨hut, hmem⟩ := h.nodup.mem_erase_iff.mp hu
    rw [Function.update_of_ne hut]
    exact h.readers u hmem

end SharedMutex

/-! ## Deadlocks -/

/-- `t` waits for a lock that `u` holds. -/
def Waits (locks : Λ → SharedMutex τ) (wants : τ → Option Λ) (t u : τ) :
    Prop :=
  ∃ l, wants t = some l ∧ (locks l).Holds u

/-- Every thread of the set waits for a thread of the set. -/
def Deadlocked (waits : τ → τ → Prop) (threads : Set τ) : Prop :=
  threads.Nonempty ∧ ∀ t ∈ threads, ∃ u ∈ threads, waits t u

/-- Threads that take locks in increasing order are not deadlocked. -/
theorem not_deadlocked {locks : Λ → SharedMutex τ} {wants : τ → Option Λ}
    (rank : Λ → ℕ) {bound : ℕ} (hbound : ∀ l, rank l ≤ bound)
    (horder : ∀ t l l', wants t = some l → (locks l').Holds t →
      rank l' < rank l) (threads : Set τ) :
    ¬ Deadlocked (Waits locks wants) threads := by
  rintro ⟨⟨t, ht⟩, hwait⟩
  have hclimb : ∀ n, ∀ t ∈ threads, ∀ l, wants t = some l →
      bound - rank l = n → False := by
    intro n
    induction n using Nat.strong_induction_on with
    | _ n ih =>
      intro t ht l hl hn
      obtain ⟨u, hu, l₁, hl₁, hholds⟩ := hwait t ht
      obtain ⟨v, -, l₂, hl₂, -⟩ := hwait u hu
      have hsame : l = l₁ := Option.some.inj (hl.symm.trans hl₁)
      have hlt := horder u l₂ l₁ hl₂ hholds
      have hle := hbound l₂
      rw [hsame] at hn
      exact ih (bound - rank l₂) (by omega) u hu l₂ hl₂ rfl
  obtain ⟨u, -, l, hl, -⟩ := hwait t ht
  exact hclimb _ t ht l hl rfl

end Locks
