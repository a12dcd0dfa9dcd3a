import Mathlib.Data.List.Basic
import Mathlib.Data.Option.Basic

/-!
# Relations between partial computations

Two computations that may fail are related by `Option.Rel r` if both fail, or
both succeed with results related by `r`.  The lemmas say how the combinators
programs are built from carry such a relation on; they are what one needs to
show that a part of the state has no influence on the rest.
-/

namespace Lifting

variable {α β γ δ ε : Type*} {r : α → β → Prop} {q : γ → δ → Prop}

theorem rel_map {a : Option α} {b : Option β} (h : Option.Rel r a b)
    {f : α → γ} {g : β → δ} (hfg : ∀ x y, r x y → q (f x) (g y)) :
    Option.Rel q (a.map f) (b.map g) := by
  cases h with
  | some h => exact .some (hfg _ _ h)
  | none => exact .none

theorem rel_bind {a : Option α} {b : Option β} (h : Option.Rel r a b)
    {f : α → Option γ} {g : β → Option δ}
    (hfg : ∀ x y, r x y → Option.Rel q (f x) (g y)) :
    Option.Rel q (a.bind f) (b.bind g) := by
  cases h with
  | some h => exact hfg _ _ h
  | none => exact .none

theorem rel_ite {p : Prop} [Decidable p] {a a' : Option α}
    {b b' : Option β} (h : Option.Rel r a b) (h' : Option.Rel r a' b') :
    Option.Rel r (if p then a else a') (if p then b else b') := by
  split
  · exact h
  · exact h'

theorem rel_foldlM {f : α → ε → Option α} {g : β → ε → Option β}
    (hfg : ∀ x y e, r x y → Option.Rel r (f x e) (g y e)) (l : List ε)
    {x : α} {y : β} (h : r x y) :
    Option.Rel r (l.foldlM f x) (l.foldlM g y) := by
  induction l generalizing x y with
  | nil => exact .some h
  | cons e l ih =>
    rw [List.foldlM_cons, List.foldlM_cons]
    apply rel_bind (hfg x y e h)
    intro x' y' h'
    exact ih h'

theorem rel_some {a : Option α} {b : Option β} {x : α}
    (h : Option.Rel r a b) (hx : a = some x) : ∃ y, b = some y ∧ r x y := by
  cases h with
  | some h =>
    cases hx
    exact ⟨_, rfl, h⟩
  | none => cases hx

end Lifting
