import Mathlib.Tactic.Ring
import Mathlib.Tactic.Linarith

/-! Estimating a quotient digit from leading digits. The divisor's leading digit is at least half the base. -/
namespace WebKit.Base
open Nat

/-- Decrease an estimate until its product with two divisor digits fits under three dividend digits, or the partial remainder
leaves one digit. -/
def correctEstimate (b v1 v2 u2 : Nat) : Nat → Nat → Nat
  | 0, _ => 0
  | q + 1, r =>
    if b ≤ q + 1 ∨ r*b + u2 < (q+1)*v2 then
      if b ≤ r + v1 then q else correctEstimate b v1 v2 u2 q (r+v1)
    else q + 1

variable {b v1 v2 u2 : Nat}

private theorem correctEstimate_of_bound (hv2 : v2 < b) (hu2 : u2 < b) (q r : Nat)
    (hu : q*v1 + r < v1*b + v2) (hq : q ≤ b + 1)
    (hl : ((q*v1+r)*b+u2)/(v1*b+v2) ≤ q) :
    correctEstimate b v1 v2 u2 q r = ((q*v1+r)*b+u2)/(v1*b+v2) := by
  have hv : 0 < v1*b + v2 := by omega
  induction q generalizing r with
  | zero =>
    exact (le_zero.1 hl).symm
  | succ q ih =>
    have hs : q*v1 + (r+v1) = (q+1)*v1 + r := by ring
    have ht : (q+1)*(v1*b+v2) + r*b = ((q+1)*v1+r)*b + (q+1)*v2 := by ring
    rw [correctEstimate]
    split
    next hc =>
      have hlt : (((q+1)*v1+r)*b+u2)/(v1*b+v2) < q + 1 := by
        rw [div_lt_iff_lt_mul hv]
        rcases hc with hc | hc
        · have h1 := mul_le_mul_right b (show (q+1)*v1 + r + 1 ≤ v1*b + v2 by omega)
          have h2 := mul_le_mul_right (v1*b+v2) hc
          rw [add_mul _ 1,mul_comm (v1*b+v2) b] at h1
          omega
        · omega
      split
      next hb =>
        have hg : q ≤ (((q+1)*v1+r)*b+u2)/(v1*b+v2) := by
          rw [le_div_iff_mul_le hv]
          have h1 : q*v2 ≤ b*b := Nat.mul_le_mul (by omega) hv2.le
          have h2 := mul_le_mul_right b hb
          have h3 : q*(v1*b+v2) + (r+v1)*b = ((q+1)*v1+r)*b + q*v2 := by ring
          omega
        omega
      · rw [← hs] at hu hlt ⊢
        exact ih (r+v1) hu (by omega) (by omega)
    next hc =>
      have hg : q + 1 ≤ (((q+1)*v1+r)*b+u2)/(v1*b+v2) := by
        rw [le_div_iff_mul_le hv]
        omega
      omega

/-- From the quotient by the leading digit, the corrected estimate is the quotient of three leading digits by two. -/
theorem correctEstimate_eq {u : Nat} (hv1 : b ≤ 2*v1) (hv2 : v2 < b) (hu2 : u2 < b) (hu : u < v1*b + v2) :
    correctEstimate b v1 v2 u2 (u/v1) (u%v1) = (u*b+u2)/(v1*b+v2) := by
  have hv : 0 < v1 := by omega
  have he : u/v1*v1 + u%v1 = u := by
    rw [mul_comm]
    exact div_add_mod u v1
  have hq : u/v1 ≤ b + 1 := by
    rw [← Nat.lt_add_one_iff,Nat.div_lt_iff_lt_mul hv]
    have : (b+1+1)*v1 = v1*b + 2*v1 := by ring
    omega
  have hl : (u*b+u2)/(v1*b+v2) ≤ u/v1 := by
    rw [← Nat.lt_add_one_iff,Nat.div_lt_iff_lt_mul (by omega)]
    have h1 : u + 1 ≤ (u/v1+1)*v1 := by
      have := mod_lt u hv
      rw [add_mul]
      omega
    have h2 := mul_le_mul_right b h1
    have h3 : (u/v1+1)*(v1*b+v2) = (u/v1+1)*v1*b + (u/v1+1)*v2 := by ring
    rw [add_mul u] at h2
    omega
  have h := @correctEstimate_of_bound b v1 v2 u2 hv2 hu2 (u/v1) (u%v1)
  rw [he] at h
  exact h hu hq hl

/-- The quotient of leading digits is never below the full one. -/
theorem quotient_le_leading {t v m x y : Nat} (hv : 0 < v) (hy : y < m) : (t*m+y)/(v*m+x) ≤ t/v := by
  have hp : 0 < v*m + x := Nat.add_pos_left (Nat.mul_pos hv (by omega)) x
  rw [← Nat.lt_add_one_iff,Nat.div_lt_iff_lt_mul hp]
  have h1 : t + 1 ≤ (t/v+1)*v := by
    have := mod_lt t hv
    have := div_add_mod t v
    rw [add_mul,mul_comm (t/v)]
    omega
  have h2 := mul_le_mul_right m h1
  have h3 : (t/v+1)*(v*m+x) = (t/v+1)*v*m + (t/v+1)*x := by ring
  rw [add_mul t] at h2
  omega

/-- It exceeds the full quotient by at most one, up to the leading part of the divisor. -/
theorem leading_le_quotient_succ {t v m x y : Nat} (hv : 0 < v) (hx : x < m) (hq : t/v ≤ v + 1) :
    t/v ≤ (t*m+y)/(v*m+x) + 1 := by
  have hp : 0 < v*m + x := Nat.add_pos_left (Nat.mul_pos hv (by omega)) x
  rcases Nat.eq_zero_or_pos (t/v) with h0 | h0
  · rw [h0]
    exact zero_le _
  · obtain ⟨q,hq'⟩ := Nat.exists_eq_add_of_le h0
    have hqv : (1+q)*v ≤ t := by
      rw [← hq',mul_comm]
      exact mul_div_le t v
    have hl : q ≤ (t*m+y)/(v*m+x) := by
      rw [le_div_iff_mul_le hp]
      have h1 := mul_le_mul_right m hqv
      have h2 : q*x ≤ v*m := Nat.mul_le_mul (by omega) hx.le
      have h3 : q*(v*m+x) + v*m = (1+q)*v*m + q*x := by ring
      omega
    omega

end WebKit.Base
