import Mathlib.Logic.Function.Basic

/-! Loops with a bound on the number of rounds: a step either continues or returns. -/
namespace WebKit.Base

variable {σ ρ : Type*}

/-- Run a step at most the given number of rounds; none when the bound is reached. -/
def loop (step : σ → σ ⊕ ρ) : Nat → σ → Option ρ
  | 0, _ => none
  | n + 1, s =>
    match step s with
    | .inl s' => loop step n s'
    | .inr r => some r

variable {step : σ → σ ⊕ ρ}

/-- A loop that returned returns the same with a larger bound. -/
theorem loop_mono {n m : Nat} (h : n ≤ m) {s : σ} {r : ρ} (hr : loop step n s = some r) : loop step m s = some r := by
  induction n generalizing m s with
  | zero => cases hr
  | succ n ih =>
    obtain ⟨m,rfl⟩ := Nat.exists_eq_add_of_le' h
    rw [← Nat.add_assoc,loop]
    rw [loop] at hr
    cases hs : step s with
    | inl s' =>
      rw [hs] at hr
      exact ih (by omega) hr
    | inr r' =>
      rw [hs] at hr
      exact hr

/-- Total correctness: an invariant with a decreasing measure. -/
theorem loop_spec {I : σ → Prop} {Q : ρ → Prop} (m : σ → Nat)
    (hc : ∀ s s', I s → step s = .inl s' → I s' ∧ m s' < m s)
    (hr : ∀ s r, I s → step s = .inr r → Q r) (n : Nat) (s : σ) (hI : I s) (hn : m s < n) :
    ∃ r, loop step n s = some r ∧ Q r := by
  induction n generalizing s with
  | zero => omega
  | succ n ih =>
    rw [loop]
    cases hs : step s with
    | inl s' =>
      obtain ⟨hI',hl⟩ := hc s s' hI hs
      exact ih s' hI' (by omega)
    | inr r => exact ⟨r,rfl,hr s r hI hs⟩

/-- A loop whose step may also fail; none when it fails or when the bound is reached. -/
def loopM (step : σ → Option (σ ⊕ ρ)) : Nat → σ → Option ρ
  | 0, _ => none
  | n + 1, s =>
    match step s with
    | none => none
    | some (.inl s') => loopM step n s'
    | some (.inr r) => some r

variable {step : σ → Option (σ ⊕ ρ)}

/-- Total correctness: the invariant is indexed by a bound on the rounds to come. -/
theorem loopM_spec {I : Nat → σ → Prop} {Q : ρ → Prop}
    (hst : ∀ k s, I k s → (∃ s' k', step s = some (.inl s') ∧ k' < k ∧ I k' s') ∨ ∃ r, step s = some (.inr r) ∧ Q r)
    {k n : Nat} {s : σ} (hI : I k s) (hn : k < n) : ∃ r, loopM step n s = some r ∧ Q r := by
  induction n generalizing k s with
  | zero => omega
  | succ n ih =>
    rw [loopM]
    obtain ⟨s',k',hs,hk,hI'⟩ | ⟨r,hs,hQ⟩ := hst k s hI
    · rw [hs]
      exact ih hI' (by omega)
    · rw [hs]
      exact ⟨r,rfl,hQ⟩

theorem loopM_eq {I : Nat → σ → Prop} {r : ρ}
    (hs : ∀ k s, I k s → (∃ s' k', step s = some (.inl s') ∧ k' < k ∧ I k' s') ∨ step s = some (.inr r))
    {k n : Nat} {s : σ} (hI : I k s) (hn : k < n) : loopM step n s = some r := by
  obtain ⟨r',hr',rfl⟩ := loopM_spec (Q := (· = r)) (fun k s h => (hs k s h).imp_right fun hr => ⟨r,hr,rfl⟩) hI hn
  exact hr'

end WebKit.Base
