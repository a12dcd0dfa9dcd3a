import Mathlib.Data.List.Basic

/-!
# Wildcard patterns

The language of a pattern in which one letter stands for any word, another one
for any letter, and every other letter for itself.  A matcher that goes back
to the last star it met is justified by `Matches.of_append_star`: what the
letters before a star have matched need not be reconsidered, because a later
start of them only makes the word shorter that the star has to match.
-/

namespace Glob

open List

variable {α : Type*}

/-- The two letters with a meaning of their own. -/
structure Wildcards (α : Type*) where
  star : α
  any : α
  star_ne_any : star ≠ any

variable (w : Wildcards α)

/-- A letter of the pattern other than a star stands for a letter. -/
def Fits (d c : α) : Prop := d = w.any ∨ d = c

/-- The word is in the language of the pattern. -/
def Matches : List α → List α → Prop
  | [], r => r = []
  | d :: p, r =>
    d = w.star ∧ (∃ k, Matches p (r.drop k)) ∨
      d ≠ w.star ∧ ∃ c r', r = c :: r' ∧ Fits w d c ∧ Matches p r'

variable {w} {p r m : List α} {c d : α}

@[simp] theorem matches_nil : Matches w [] r ↔ r = [] := by
  simp [Matches]

theorem matches_star : Matches w (w.star :: p) r ↔
    ∃ k, Matches w p (r.drop k) := by
  simp [Matches]

theorem matches_cons (hd : d ≠ w.star) :
    Matches w (d :: p) (c :: r) ↔ Fits w d c ∧ Matches w p r := by
  simp [Matches, hd]

theorem not_matches_cons_nil (hd : d ≠ w.star) : ¬ Matches w (d :: p) [] := by
  simp [Matches, hd]

theorem matches_empty : Matches w p [] ↔ ∀ d ∈ p, d = w.star := by
  induction p with
  | nil => simp
  | cons d p ih =>
    by_cases hd : d = w.star
    · rw [hd, matches_star]
      simp [ih]
    · exact iff_of_false (not_matches_cons_nil hd) (by simp [hd])

theorem Matches.star_of_drop {k : ℕ} (h : Matches w (w.star :: p) (r.drop k)) :
    Matches w (w.star :: p) r := by
  obtain ⟨j, hj⟩ := matches_star.mp h
  rw [drop_drop] at hj
  exact matches_star.mpr ⟨k + j, hj⟩

theorem Matches.drop_of_append {seg : List α} (hseg : w.star ∉ seg)
    (h : Matches w (seg ++ p) r) :
    seg.length ≤ r.length ∧ Matches w p (r.drop seg.length) := by
  induction seg generalizing r with
  | nil => exact ⟨Nat.zero_le _, h⟩
  | cons d seg ih =>
    rw [mem_cons, not_or] at hseg
    rcases r with _ | ⟨c, r⟩
    · exact absurd h (not_matches_cons_nil (Ne.symm hseg.1))
    · obtain ⟨-, h⟩ := (matches_cons (Ne.symm hseg.1)).mp h
      obtain ⟨hlen, h⟩ := ih hseg.2 h
      exact ⟨Nat.succ_le_succ hlen, h⟩

theorem Matches.append_left {seg : List α} (hseg : w.star ∉ seg)
    (h : Matches w p r) : Matches w (seg ++ p) (seg ++ r) := by
  induction seg with
  | nil => exact h
  | cons d seg ih =>
    rw [mem_cons, not_or] at hseg
    exact (matches_cons (Ne.symm hseg.1)).mpr ⟨.inr rfl, ih hseg.2⟩

theorem Matches.append {q x y : List α} (h : Matches w p x)
    (h' : Matches w q y) : Matches w (p ++ q) (x ++ y) := by
  induction p generalizing x with
  | nil =>
    rw [matches_nil.mp h]
    exact h'
  | cons d p ih =>
    by_cases hd : d = w.star
    · rw [hd] at h ⊢
      obtain ⟨k, hk⟩ := matches_star.mp h
      have hdrop : x.drop k ++ y = (x ++ y).drop (min k x.length) := by
        rw [drop_append_of_le_length (Nat.min_le_right _ _),
          drop_eq_drop_min]
      refine matches_star.mpr ⟨min k x.length, ?_⟩
      rw [← hdrop]
      exact ih hk
    · rcases x with _ | ⟨c, x⟩
      · exact absurd h (not_matches_cons_nil hd)
      · obtain ⟨hfits, h⟩ := (matches_cons hd).mp h
        exact (matches_cons hd).mpr ⟨hfits, ih h⟩

theorem matches_singleton_star (r : List α) : Matches w [w.star] r :=
  matches_star.mpr ⟨r.length, by simp⟩

theorem Matches.of_append_star {seg : List α} (hseg : w.star ∉ seg) {k : ℕ}
    (h : Matches w (seg ++ w.star :: p) (m.drop k)) :
    Matches w (w.star :: p) (m.drop seg.length) := by
  have hrest := (Matches.drop_of_append hseg h).2
  rw [drop_drop, Nat.add_comm, ← drop_drop] at hrest
  exact hrest.star_of_drop

end Glob
