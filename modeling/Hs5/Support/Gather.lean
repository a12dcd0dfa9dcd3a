import Hs5.Support.OrderedMap
import Mathlib.Data.List.Count

/-!
# Lists gathered from the entries of a map

Each entry of a map contributes a list.  How often an element occurs in all
of them together changes by what a single entry contributes when that entry is
inserted, replaced or erased.
-/

namespace OrderedMap

variable {κ ν α : Type*} [LinearOrder κ]

def gather (f : κ × ν → List α) (m : OrderedMap κ ν) : List α :=
  m.entries.flatMap f

variable {f : κ × ν → List α} {m : OrderedMap κ ν} {k : κ} {v : ν}

theorem mem_gather {a : α} : a ∈ gather f m ↔ ∃ p ∈ m, a ∈ f p :=
  List.mem_flatMap

variable [DecidableEq α]

section

variable (f : κ × ν → List α)

theorem count_gather_insert (m : OrderedMap κ ν) (k : κ) (v : ν) (a : α) :
    (gather f (m.insert k v)).count a =
      (f (k, v)).count a + (gather f (m.erase k)).count a := by
  have hperm := (perm_insert m k v).flatMap_right f
  rw [gather, hperm.count_eq, List.flatMap_cons, List.count_append]
  rfl

theorem count_gather_erase (h : (k, v) ∈ m) (a : α) : (gather f m).count a =
      (f (k, v)).count a + (gather f (m.erase k)).count a := by
  have hperm := (perm_erase h).flatMap_right f
  rw [gather, hperm.count_eq, List.flatMap_cons, List.count_append]
  rfl

theorem count_gather_set (h : (k, v) ∈ m) (v' : ν) (a : α) :
    (gather f (m.insert k v')).count a + (f (k, v)).count a =
      (gather f m).count a + (f (k, v')).count a := by
  rw [count_gather_insert, count_gather_erase f h]
  omega

theorem count_gather_insert_of_lookup (h : m.lookup k = none) (v : ν) (a : α) :
    (gather f (m.insert k v)).count a =
      (f (k, v)).count a + (gather f m).count a := by
  rw [count_gather_insert, erase_eq_self (lookup_eq_none.mp h)]

end

end OrderedMap
