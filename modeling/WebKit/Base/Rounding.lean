import Mathlib.Algebra.Order.Field.Basic
import Mathlib.Tactic.FieldSimp
import Mathlib.Tactic.Linarith
import Mathlib.Tactic.Ring

/-! Quotients of integers rounded to the nearest integer, halves away from zero. -/
namespace WebKit.Base
open Int

/-- The quotient rounded to the nearest integer, halves away from zero. -/
def roundDiv (n : Int) (d : Nat) : Int :=
  if (n.tmod d).natAbs*2 ≥ d then if n.tmod d < 0 then n.tdiv d - 1 else n.tdiv d + 1 else n.tdiv d

section
variable {n : Int} {d : Nat}

section
variable (hd : 0 < d)
include hd

theorem tdiv_tmod_cases :
    d*n.tdiv d + n.tmod d = n ∧
      ((0 ≤ n ∧ 0 ≤ n.tmod d ∧ n.tmod d < d) ∨ (n < 0 ∧ n.tmod d ≤ 0 ∧ -(d : Int) < n.tmod d)) := by
  refine ⟨mul_tdiv_add_tmod n d,?_⟩
  rcases lt_or_ge n 0 with hn | hn
  · have h1 := tmod_nonneg (d : Int) (show 0 ≤ -n by omega)
    have h2 := tmod_lt_of_pos (-n) (show (0 : Int) < d by omega)
    rw [neg_tmod] at h1 h2
    exact .inr ⟨hn,by omega,by omega⟩
  · exact .inl ⟨hn,tmod_nonneg _ hn,tmod_lt_of_pos _ (by omega)⟩

/-- Rounding moves the truncated quotient by at most one, away from zero. -/
theorem roundDiv_cases :
    roundDiv n d = n.tdiv d ∨ (0 < n ∧ roundDiv n d = n.tdiv d + 1) ∨ (n < 0 ∧ roundDiv n d = n.tdiv d - 1) := by
  obtain ⟨_,hc⟩ := @tdiv_tmod_cases n d hd
  have hz : n = 0 → n.tmod d = 0 := by
    rintro rfl
    exact zero_tmod _
  rw [roundDiv]
  split_ifs with hh hng
  · exact .inr (.inr ⟨by omega,rfl⟩)
  · refine .inr (.inl ⟨?_,rfl⟩)
    rcases lt_trichotomy n 0 with hn | hn | hn
    · omega
    · omega
    · exact hn
  · exact .inl rfl

end

end
end WebKit.Base
