import Hs5.Support.OrderedMap
import Mathlib.Algebra.BigOperators.Group.List.Basic
import Mathlib.Algebra.BigOperators.Ring.Finset
import Mathlib.Algebra.Order.Group.Unbundled.Int
import Mathlib.Data.Int.ConditionallyCompleteOrder
import Mathlib.Data.Int.Interval
import Mathlib.Order.CompletePartialOrder
import Mathlib.Order.ConditionallyCompleteLattice.Basic
import Mathlib.Order.Interval.Set.Disjoint

/-!
# How often a point is covered by a list of intervals

A list of half-open intervals, given by their end points, is pairwise
disjoint exactly when every point lies in at most one of them.  The number
of intervals a point lies in is additive, does not change when an interval
is cut in two or when two touching intervals are joined, and does not depend
on the order of the list.  Ownership arguments are therefore carried out on
this number, `mult`, and only the final statement is turned back into
disjointness.  For integer intervals it also determines their total length.
-/

namespace Cover

open List

variable {α : Type*} [LinearOrder α]

/-- One if the interval contains the point, zero otherwise. -/
def ind (i : α × α) (x : α) : ℕ := if i.1 ≤ x ∧ x < i.2 then 1 else 0

/-- The number of intervals of the list that contain the point. -/
def mult (l : List (α × α)) (x : α) : ℕ := (l.map fun i => ind i x).sum

/-- No two intervals at different places of the list share a point. -/
def PairwiseDisjoint (l : List (α × α)) : Prop :=
  l.Pairwise fun i j => Disjoint (Set.Ico i.1 i.2) (Set.Ico j.1 j.2)

theorem ind_le_one (i : α × α) (x : α) : ind i x ≤ 1 := by
  unfold ind
  split <;> simp

theorem ind_eq_one {i : α × α} {x : α} :
    ind i x = 1 ↔ x ∈ Set.Ico i.1 i.2 := by
  simp [ind, Set.mem_Ico]

theorem ind_of_le {a b : α} (h : b ≤ a) (x : α) : ind (a, b) x = 0 := by
  unfold ind
  rw [if_neg]
  rintro ⟨hax, hxb⟩
  exact (hax.trans_lt hxb).not_ge h

theorem ind_split {a m b : α} (ham : a ≤ m) (hmb : m ≤ b) (x : α) :
    ind (a, b) x = ind (a, m) x + ind (m, b) x := by
  unfold ind
  by_cases hx : x < m
  · have hnot : ¬ (m ≤ x ∧ x < b) := fun h => h.1.not_gt hx
    have hiff : (a ≤ x ∧ x < b) ↔ (a ≤ x ∧ x < m) :=
      ⟨fun h => ⟨h.1, hx⟩, fun h => ⟨h.1, hx.trans_le hmb⟩⟩
    simp [hnot, hiff]
  · have hnot : ¬ (a ≤ x ∧ x < m) := fun h => hx h.2
    have hiff : (a ≤ x ∧ x < b) ↔ (m ≤ x ∧ x < b) :=
      ⟨fun h => ⟨not_lt.mp hx, h.2⟩, fun h => ⟨ham.trans h.1, h.2⟩⟩
    simp [hnot, hiff]

@[simp] theorem mult_nil (x : α) : mult [] x = 0 := rfl

@[simp] theorem mult_cons (i : α × α) (l : List (α × α)) (x : α) :
    mult (i :: l) x = ind i x + mult l x := by
  simp [mult]

@[simp] theorem mult_append (l₁ l₂ : List (α × α)) (x : α) :
    mult (l₁ ++ l₂) x = mult l₁ x + mult l₂ x := by
  simp [mult]

theorem mult_perm {l₁ l₂ : List (α × α)} (h : l₁.Perm l₂) (x : α) :
    mult l₁ x = mult l₂ x :=
  (h.map _).sum_eq

variable {l : List (α × α)}

theorem ind_le_mult {i : α × α} (h : i ∈ l) (x : α) :
    ind i x ≤ mult l x := by
  induction l with
  | nil => cases h
  | cons j l ih =>
    rw [mult_cons]
    rcases mem_cons.mp h with rfl | h'
    · omega
    · have := ih h'
      omega

theorem exists_of_mult_pos {x : α} (h : 0 < mult l x) :
    ∃ i ∈ l, i.1 ≤ x ∧ x < i.2 := by
  induction l with
  | nil => simp at h
  | cons j l ih =>
    by_cases hj : j.1 ≤ x ∧ x < j.2
    · exact ⟨j, mem_cons_self, hj⟩
    · have hrest : 0 < mult l x := by simpa [ind, hj] using h
      obtain ⟨i, hi, hx⟩ := ih hrest
      exact ⟨i, mem_cons_of_mem _ hi, hx⟩

theorem mult_pos_iff {x : α} :
    0 < mult l x ↔ ∃ i ∈ l, i.1 ≤ x ∧ x < i.2 := by
  refine ⟨exists_of_mult_pos, ?_⟩
  rintro ⟨i, hi, hx⟩
  have hle := ind_le_mult hi x
  rw [ind, if_pos hx] at hle
  exact hle

/-- Disjointness is a bound on the number of intervals at each point. -/
theorem pairwiseDisjoint_iff :
    PairwiseDisjoint l ↔ ∀ x, mult l x ≤ 1 := by
  induction l with
  | nil => simp [PairwiseDisjoint]
  | cons i l ih =>
    have hcons : PairwiseDisjoint (i :: l) ↔
        (∀ j ∈ l, Disjoint (Set.Ico i.1 i.2) (Set.Ico j.1 j.2)) ∧
          PairwiseDisjoint l := pairwise_cons
    rw [hcons, ih]
    constructor
    · rintro ⟨hhead, htail⟩ x
      rw [mult_cons]
      by_cases hx : i.1 ≤ x ∧ x < i.2
      · have hzero : mult l x = 0 := by
          by_contra hne
          obtain ⟨j, hj, hxj⟩ :=
            exists_of_mult_pos (Nat.pos_of_ne_zero hne)
          exact Set.disjoint_left.mp (hhead j hj) hx hxj
        have := ind_le_one i x
        omega
      · have := htail x
        simpa [ind, hx] using this
    · intro h
      refine ⟨?_, ?_⟩
      · intro j hj
        rw [Set.disjoint_left]
        intro x hxi hxj
        have htotal := h x
        rw [mult_cons, ind_eq_one.mpr hxi] at htotal
        have hle := ind_le_mult hj x
        rw [ind_eq_one.mpr hxj] at hle
        omega
      · intro x
        have := h x
        rw [mult_cons] at this
        omega

/-! ## Total length of integer intervals -/

def lengthSum (l : List (ℤ × ℤ)) : ℤ := (l.map fun i => i.2 - i.1).sum

@[simp] theorem lengthSum_nil : lengthSum [] = 0 := rfl

@[simp] theorem lengthSum_cons (i : ℤ × ℤ) (l : List (ℤ × ℤ)) :
    lengthSum (i :: l) = i.2 - i.1 + lengthSum l := by
  simp [lengthSum]

theorem sum_ind {i : ℤ × ℤ} {lo hi : ℤ} (hi' : i.1 ≤ i.2) (hlo : lo ≤ i.1)
    (hhi : i.2 ≤ hi) : ∑ x ∈ Finset.Ico lo hi, (ind i x : ℤ) = i.2 - i.1 := by
  have hfilter : (Finset.Ico lo hi).filter (fun x => i.1 ≤ x ∧ x < i.2) =
      Finset.Ico i.1 i.2 := by
    ext x
    simp only [Finset.mem_filter, Finset.mem_Ico]
    omega
  calc ∑ x ∈ Finset.Ico lo hi, (ind i x : ℤ)
      = ((Finset.Ico lo hi).filter (fun x => i.1 ≤ x ∧ x < i.2)).card := by
        simp only [ind, Nat.cast_ite, Nat.cast_one, Nat.cast_zero,
          Finset.sum_boole]
    _ = i.2 - i.1 := by
        rw [hfilter, Int.card_Ico]
        omega

/-- Within bounds, the total length counts every point as often as it is
covered. -/
theorem lengthSum_eq_sum (lo hi : ℤ) {l : List (ℤ × ℤ)}
    (h : ∀ i ∈ l, i.1 ≤ i.2 ∧ lo ≤ i.1 ∧ i.2 ≤ hi) :
    lengthSum l = ∑ x ∈ Finset.Ico lo hi, (mult l x : ℤ) := by
  induction l with
  | nil => simp
  | cons i l ih =>
    obtain ⟨hi', hlo, hhi⟩ := h i mem_cons_self
    have hrest := ih fun j hj => h j (mem_cons_of_mem _ hj)
    rw [lengthSum_cons, hrest, ← sum_ind hi' hlo hhi, ← Finset.sum_add_distrib]
    simp only [mult_cons, Nat.cast_add]

theorem exists_bounds (l : List (ℤ × ℤ)) :
    ∃ lo hi, ∀ i ∈ l, lo ≤ i.1 ∧ i.2 ≤ hi := by
  induction l with
  | nil => exact ⟨0, 0, by simp⟩
  | cons i l ih =>
    obtain ⟨lo, hi, h⟩ := ih
    refine ⟨min lo i.1, max hi i.2, ?_⟩
    intro j hj
    rcases mem_cons.mp hj with rfl | hj
    · omega
    · have := h j hj
      omega

theorem lengthSum_congr {l l' : List (ℤ × ℤ)} (h : ∀ i ∈ l, i.1 ≤ i.2)
    (h' : ∀ i ∈ l', i.1 ≤ i.2) (hmult : ∀ x, mult l x = mult l' x) :
    lengthSum l = lengthSum l' := by
  obtain ⟨lo, hi, hb⟩ := exists_bounds (l ++ l')
  rw [lengthSum_eq_sum lo hi, lengthSum_eq_sum lo hi]
  · simp only [hmult]
  · intro i hi'
    exact ⟨h' i hi', hb i (mem_append_right _ hi')⟩
  · intro i hi'
    exact ⟨h i hi', hb i (mem_append_left _ hi')⟩

/-! ## Intervals stored in an ordered map -/

section OrderedMap

variable {κ ν : Type*} [LinearOrder κ] (f : κ × ν → List (α × α))

/-- Multiplicity of the intervals read off the entries of a map. -/
def multMap (m : OrderedMap κ ν) (x : α) : ℕ := mult (m.entries.flatMap f) x

variable {m : OrderedMap κ ν}

theorem multMap_erase {k : κ} {v : ν} (h : (k, v) ∈ m) (x : α) :
    multMap f m x = mult (f (k, v)) x + multMap f (m.erase k) x := by
  have hperm := (OrderedMap.perm_erase h).flatMap_right f
  rw [multMap, mult_perm hperm]
  simp [multMap]

theorem multMap_insert (m : OrderedMap κ ν) (k : κ) (v : ν) (x : α) :
    multMap f (m.insert k v) x =
      mult (f (k, v)) x + multMap f (m.erase k) x := by
  have hperm := (OrderedMap.perm_insert m k v).flatMap_right f
  rw [multMap, mult_perm hperm]
  simp [multMap]

theorem mult_le_multMap {p : κ × ν} (h : p ∈ m)
    (x : α) : mult (f p) x ≤ multMap f m x := by
  rw [multMap_erase f (k := p.1) (v := p.2) h]
  exact Nat.le_add_right _ _

theorem mult_add_mult_le_multMap {p q : κ × ν} (hp : p ∈ m) (hq : q ∈ m)
    (hne : p.1 ≠ q.1) (x : α) :
    mult (f p) x + mult (f q) x ≤ multMap f m x := by
  rw [multMap_erase f (k := p.1) (v := p.2) hp]
  have hle := mult_le_multMap f (OrderedMap.mem_erase.mpr ⟨hq, hne.symm⟩) x
  exact Nat.add_le_add_left hle _

end OrderedMap

end Cover
