import Mathlib.Data.List.Basic
import Mathlib.Data.List.TakeDrop
import Mathlib.Order.Defs.LinearOrder
import Mathlib.Order.Lattice

/-!
# Files written in order and synced up to a point

A file that is only ever appended to, or the sequence of writes made to a
file, together with the number of entries that a completed sync covers.  A
sync covers what was written when it started, so `sync` takes the number of
entries there were at that moment; entries may be added while it runs.
-/

/-- A sequence of writes of which the first `synced` are durable. -/
structure SyncedLog (α : Type*) where
  entries : List α
  synced : ℕ
  synced_le : synced ≤ entries.length

namespace SyncedLog

open List

variable {α : Type*}

/-- Entries of which nothing is known to be durable. -/
def unsynced (entries : List α) : SyncedLog α := ⟨entries, 0, Nat.zero_le _⟩

def push (f : SyncedLog α) (x : α) : SyncedLog α where
  entries := f.entries ++ [x]
  synced := f.synced
  synced_le := by
    have h := f.synced_le
    simp only [length_append]
    omega

def append (f : SyncedLog α) (l : List α) : SyncedLog α where
  entries := f.entries ++ l
  synced := f.synced
  synced_le := by
    have h := f.synced_le
    simp only [length_append]
    omega

/-- Completion of a sync that started when there were `n` entries. -/
def sync (f : SyncedLog α) (n : ℕ) : SyncedLog α where
  entries := f.entries
  synced := max f.synced (min n f.entries.length)
  synced_le := max_le f.synced_le (min_le_right _ _)

def size (f : SyncedLog α) : ℕ := f.entries.length

def durable (f : SyncedLog α) : List α := f.entries.take f.synced

@[simp]
theorem unsynced_entries (l : List α) : (unsynced l).entries = l := rfl

@[simp]
theorem push_entries (f : SyncedLog α) (x : α) :
    (f.push x).entries = f.entries ++ [x] := rfl

@[simp]
theorem append_entries (f : SyncedLog α) (l : List α) :
    (f.append l).entries = f.entries ++ l := rfl

@[simp]
theorem sync_entries (f : SyncedLog α) (n : ℕ) :
    (f.sync n).entries = f.entries := rfl

variable {f : SyncedLog α} {x : α} {n : ℕ}

theorem mem_of_durable (h : x ∈ f.durable) :
    x ∈ f.entries :=
  mem_of_mem_take h

@[simp]
theorem durable_push (f : SyncedLog α) (x : α) :
    (f.push x).durable = f.durable :=
  take_append_of_le_length f.synced_le

@[simp]
theorem durable_append (f : SyncedLog α) (l : List α) :
    (f.append l).durable = f.durable :=
  take_append_of_le_length f.synced_le

theorem durable_sync_of_durable (n : ℕ)
    (h : x ∈ f.durable) : x ∈ (f.sync n).durable :=
  (take_prefix_take_left (le_max_left _ _)).subset h

theorem durable_sync_of_take
    (h : x ∈ f.entries.take n) : x ∈ (f.sync n).durable := by
  have htake : f.entries.take n = f.entries.take (min n f.entries.length) :=
    take_eq_take_min
  rw [htake] at h
  exact (take_prefix_take_left (le_max_right _ _)).subset h

theorem durable_sync_size (h : x ∈ f.entries) :
    x ∈ (f.sync f.size).durable :=
  durable_sync_of_take (by rwa [size, take_length])

/-- `f'` has all entries of `f`, and those that were durable still are. -/
structure Extends (f f' : SyncedLog α) : Prop where
  entries : f.entries <+: f'.entries
  durable : ∀ x ∈ f.durable, x ∈ f'.durable

theorem Extends.refl (f : SyncedLog α) : f.Extends f :=
  ⟨prefix_refl _, fun _ hx => hx⟩

theorem Extends.trans {f f' f'' : SyncedLog α} (h : f.Extends f')
    (h' : f'.Extends f'') : f.Extends f'' :=
  ⟨h.entries.trans h'.entries, fun x hx => h'.durable x (h.durable x hx)⟩

theorem extends_push (f : SyncedLog α) (x : α) : f.Extends (f.push x) :=
  ⟨prefix_append _ _, fun y hy => by rwa [durable_push]⟩

theorem extends_sync (f : SyncedLog α) (n : ℕ) : f.Extends (f.sync n) :=
  ⟨prefix_refl _, fun _ hx => durable_sync_of_durable n hx⟩

theorem Extends.take {f f' : SyncedLog α} (h : f.Extends f')
    (hx : x ∈ f.entries.take n) : x ∈ f'.entries.take n := by
  obtain ⟨rest, hrest⟩ := h.entries
  rw [← hrest, take_append]
  exact mem_append_left _ hx

theorem durable_sync_cases
    (h : x ∈ (f.sync n).durable) : x ∈ f.durable ∨ x ∈ f.entries.take n := by
  have hx : x ∈ f.entries.take (max f.synced (min n f.entries.length)) := h
  rcases le_total (min n f.entries.length) f.synced with hle | hle
  · rw [max_eq_left hle] at hx
    exact .inl hx
  · rw [max_eq_right hle] at hx
    exact .inr ((take_prefix_take_left (min_le_left _ _)).subset hx)

@[simp]
theorem sync_zero (f : SyncedLog α) : f.sync 0 = f := by
  simp [sync]

theorem Extends.sync {f f' : SyncedLog α} (h : f.Extends f') (n : ℕ) :
    (f.sync n).Extends (f'.sync n) := by
  refine ⟨h.entries, ?_⟩
  intro x hx
  rcases durable_sync_cases hx with hx | hx
  · exact durable_sync_of_durable n (h.durable x hx)
  · exact durable_sync_of_take (h.take hx)

theorem take_push {x y : α}
    (h : x ∈ f.entries.take n) : x ∈ (f.push y).entries.take n :=
  (f.extends_push y).take h

end SyncedLog
