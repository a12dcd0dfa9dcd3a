import Mathlib.Data.List.Basic
import Mathlib.Data.Option.Basic

/-!
# Guarded runs of a transition function

A component is given by a partial step function `step : σ → ε → Option σ`:
`none` means that the event is not enabled in the state.  This module keeps
the two views of its executions that the development uses.  `exec` evaluates
a finite list of events and is what concrete executions are computed with;
`Run step ok s₀ s` says that `s` is reached from `s₀` by steps that all meet
the guard `ok` in the state they are taken from, and is what invariants are
proved by induction on.
-/

namespace Transition

variable {σ ε : Type*}

/-- Execute a list of events, stopping at the first one not enabled. -/
def exec (step : σ → ε → Option σ) : σ → List ε → Option σ
  | s, [] => some s
  | s, e :: es =>
    match step s e with
    | some s' => exec step s' es
    | none => none

/-- `s` is reached from `s₀` by steps that all meet `ok`. -/
inductive Run (step : σ → ε → Option σ) (ok : σ → ε → Prop) (s₀ : σ) : σ → Prop
  | start : Run step ok s₀ s₀
  | next {s s' : σ} {e : ε} :
      Run step ok s₀ s → ok s e → step s e = some s' → Run step ok s₀ s'

def anyStep (_ : σ) (_ : ε) : Prop := True

/-- The step function restricted to a decidable guard. -/
def guarded (step : σ → ε → Option σ) (ok : σ → ε → Prop)
    [∀ s e, Decidable (ok s e)] (s : σ) (e : ε) : Option σ :=
  if ok s e then step s e else none

variable {step : σ → ε → Option σ} {ok : σ → ε → Prop}

/-- A property of the first state that every guarded step keeps holds in
every state of every guarded run. -/
theorem Run.invariant {Inv : σ → Prop} {s₀ s : σ}
    (hrun : Run step ok s₀ s) (hstart : Inv s₀)
    (hstep : ∀ s e s', Inv s → ok s e → step s e = some s' → Inv s') :
    Inv s := by
  induction hrun with
  | start => exact hstart
  | next _ hok hs ih => exact hstep _ _ _ ih hok hs

theorem Run.trans {s₀ s₁ s₂ : σ}
    (h₁ : Run step ok s₀ s₁) (h₂ : Run step ok s₁ s₂) :
    Run step ok s₀ s₂ := by
  induction h₂ with
  | start => exact h₁
  | next _ hok hs ih => exact Run.next ih hok hs

theorem run_of_exec {s₀ s : σ} {es : List ε}
    (h : exec step s₀ es = some s) : Run step anyStep s₀ s := by
  induction es generalizing s₀ with
  | nil =>
    cases h
    exact Run.start
  | cons e es ih =>
    simp only [exec] at h
    cases hs : step s₀ e with
    | none => simp [hs] at h
    | some s₁ =>
      rw [hs] at h
      exact (Run.next Run.start trivial hs).trans (ih h)

/-- Evaluating a list of events with the guard checked gives a guarded run. -/
theorem run_of_exec_guarded [∀ s e, Decidable (ok s e)]
    {s₀ s : σ} {es : List ε}
    (h : exec (guarded step ok) s₀ es = some s) : Run step ok s₀ s := by
  have hstep : ∀ s e s', guarded step ok s e = some s' →
      ok s e ∧ step s e = some s' := by
    intro s e s' hs
    by_cases hok : ok s e
    · exact ⟨hok, by simpa [guarded, hok] using hs⟩
    · simp [guarded, hok] at hs
  refine (run_of_exec h).invariant Run.start ?_
  intro s e s' hrun _ hs
  obtain ⟨hok, hs⟩ := hstep s e s' hs
  exact Run.next hrun hok hs

end Transition
