import Mathlib.Logic.Function.Basic

/-! Runs of a deterministic system, and runs all of whose steps meet a condition on the state
before the step. -/
namespace WebKit.Base

variable {S A : Type*}

/-- Every step of the run meets the condition in the state it is taken from. -/
def Guarded (step : S → A → S) (guard : S → A → Prop) : S → List A → Prop
  | _, [] => True
  | s, a::actions => guard s a ∧ Guarded step guard (step s a) actions

variable {step : S → A → S} {guard : S → A → Prop}

/-- What every guarded step preserves holds after every guarded run. -/
theorem Guarded.invariant {I : S → Prop} (hst : ∀ s a, I s → guard s a → I (step s a)) {s : S} {actions : List A}
    (h : Guarded step guard s actions) (hs : I s) : I (actions.foldl step s) := by
  induction actions generalizing s with
  | nil => exact hs
  | cons a actions ih => exact ih h.2 (hst s a hs h.1)

end WebKit.Base
