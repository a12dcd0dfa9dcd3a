import Hs5.Support.Transition

/-!
# Inevitable states

`Inevitably step ok P s` says that a run from `s` whose steps all meet `ok`
cannot stop before it has met `P` and cannot go on for ever without meeting
it.  It follows from a variant that every such step decreases and from a step
being enabled as long as `P` does not hold.
-/

namespace Transition

variable {σ ε : Type*}

/-- Every run of steps that meet `ok` meets `P`. -/
inductive Inevitably (step : σ → ε → Option σ) (ok : σ → ε → Prop)
    (P : σ → Prop) : σ → Prop
  | now {s : σ} : P s → Inevitably step ok P s
  | later {s : σ} : (∃ e s', ok s e ∧ step s e = some s') →
      (∀ e s', ok s e → step s e = some s' → Inevitably step ok P s') →
      Inevitably step ok P s

/-- The rule for a variant: outside `P` a step is enabled, and every step keeps
the invariant and decreases the variant. -/
theorem inevitably_of_variant {step : σ → ε → Option σ} {ok : σ → ε → Prop}
    {P : σ → Prop} (Inv : σ → Prop) (variant : σ → ℕ)
    (henabled : ∀ s, Inv s → ¬ P s → ∃ e s', ok s e ∧ step s e = some s')
    (hstep : ∀ s e s', Inv s → ¬ P s → ok s e → step s e = some s' →
      Inv s' ∧ variant s' < variant s)
    {s : σ} (h : Inv s) : Inevitably step ok P s := by
  obtain ⟨n, hn⟩ : ∃ n, variant s < n := ⟨_, Nat.lt_succ_self _⟩
  induction n generalizing s with
  | zero => exact absurd hn (Nat.not_lt_zero _)
  | succ n ih =>
    by_cases hP : P s
    · exact Inevitably.now hP
    · refine Inevitably.later (henabled s h hP) fun e s' hok hs => ?_
      obtain ⟨h', hlt⟩ := hstep s e s' h hP hok hs
      exact ih h' (by omega)

end Transition
