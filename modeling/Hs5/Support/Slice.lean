import Mathlib.Data.List.Basic
import Mathlib.Data.Int.Notation
import Mathlib.Order.Basic

/-!
# Stretches of a list by position

`OccursAt l i d` says that the list `d` stands in `l` from position `i` on.
Positions are integers, as the offsets of the programs that read such a
stretch are.
-/

namespace Slice

open List

variable {α : Type*} {l m d d' : List α} {i j : ℤ}

/-- `d` stands in `l` from position `i` on. -/
def OccursAt (l : List α) (i : ℤ) (d : List α) : Prop :=
  0 ≤ i ∧ d <+: l.drop i.toNat

theorem occursAt_append (before d after : List α) :
    OccursAt (before ++ (d ++ after)) before.length d := by
  refine ⟨Int.natCast_nonneg _, ?_⟩
  rw [Int.toNat_natCast, drop_left]
  exact prefix_append _ _

theorem occursAt_nil (h : 0 ≤ i) : OccursAt l i [] := ⟨h, List.nil_prefix⟩

theorem OccursAt.trans (h : OccursAt l i m) (h' : OccursAt m j d) :
    OccursAt l (i + j) d := by
  refine ⟨Int.add_nonneg h.1 h'.1, ?_⟩
  have hsum : (i + j).toNat = i.toNat + j.toNat := Int.toNat_add h.1 h'.1
  obtain ⟨rest, hrest⟩ := h.2
  rw [hsum, ← drop_drop, ← hrest, drop_append]
  exact h'.2.trans (prefix_append _ _)

theorem OccursAt.append (h : OccursAt l i d)
    (h' : OccursAt l (i + d.length) d') : OccursAt l i (d ++ d') := by
  obtain ⟨rest, hrest⟩ := h.2
  have hsum : (i + d.length).toNat = i.toNat + d.length := by
    have := h.1
    omega
  have hdrop : l.drop (i + d.length).toNat = rest := by
    rw [hsum, ← drop_drop, ← hrest, drop_left]
  refine ⟨h.1, ?_⟩
  rw [← hrest, prefix_append_right_inj, ← hdrop]
  exact h'.2

theorem OccursAt.left (h : OccursAt l i (d ++ d')) : OccursAt l i d :=
  ⟨h.1, (prefix_append d d').trans h.2⟩

theorem OccursAt.right (h : OccursAt l i (d ++ d')) :
    OccursAt l (i + d.length) d' := by
  have hlast : OccursAt (d ++ (d' ++ [])) d.length (d' ++ []) := by
    rw [append_nil]
    have := occursAt_append d d' []
    rwa [append_nil] at this
  rw [append_nil] at hlast
  exact h.trans hlast

theorem OccursAt.prefix_take (h : OccursAt l i d) {n : ℕ}
    (hn : d.length ≤ n) : d <+: (l.drop i.toNat).take n :=
  prefix_take_iff.mpr ⟨h.2, hn⟩

theorem OccursAt.eq_take (h : OccursAt l i d) :
    d = (l.drop i.toNat).take d.length :=
  prefix_iff_eq_take.mp h.2

end Slice
