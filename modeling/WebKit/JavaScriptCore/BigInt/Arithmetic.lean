import WebKit.JavaScriptCore.BigInt.LongDivision

/-! Signed division, and the exactness of all five arithmetic operators. -/
namespace WebKit.JavaScriptCore.BigInt
open List Int Nat

namespace JSBigInt
variable {p : Platform} (heap : Storage p)

def divide (x y : JSBigInt) : Except Exception JSBigInt :=
  if y.isZero then .error (.rangeError "0 is an invalid divisor value.")
  else if absoluteCompare x y = .lessThan then .ok createZero
  else
    let resultSign := x.sign != y.sign
    if y.length = 1 then
      let divisor := y.digit 0
      if divisor = 1 then .ok (if resultSign = x.sign then x else unaryMinus heap x)
      else .ok (rightTrim heap ((absoluteDivWithDigitDivisor heap x divisor).1.setSign resultSign))
    else do
      let (quotient, _) ← absoluteDivWithBigIntDivisor heap x y
      return rightTrim heap (quotient.setSign resultSign)

def remainder (x y : JSBigInt) : Except Exception JSBigInt :=
  if y.isZero then .error (.rangeError "0 is an invalid divisor value.")
  else if absoluteCompare x y = .lessThan then .ok x
  else if y.length = 1 then
    let divisor := y.digit 0
    if divisor = 1 then .ok createZero
    else
      let remainderDigit := (absoluteDivWithDigitDivisor heap x divisor).2
      if remainderDigit = 0 then .ok createZero
      else
        let remainder := (createWithLengthUnchecked heap 1).setDigits [remainderDigit]
        .ok (rightTrim heap (remainder.setSign x.sign))
  else do
    let (_, remainder) ← absoluteDivWithBigIntDivisor heap x y
    return rightTrim heap (remainder.setSign x.sign)

/-- The value's representation, the error for a zero divisor, or an out of memory exception that the length limit justifies. -/
def DivisionYields (p : Platform) (y v : Int) (overLimit : Prop) : Except Exception JSBigInt → Prop
  | .ok r => y ≠ 0 ∧ Represents p r v
  | .error e => (y = 0 ∧ e = .rangeError "0 is an invalid divisor value.") ∨ (e = .outOfMemory ∧ overLimit)

private theorem signedValue_tdiv (s t : Bool) (a b : Nat) :
    (signedValue s a).tdiv (signedValue t b) = signedValue (s != t) (a/b) := by
  cases s <;> cases t <;> simp [signedValue]

private theorem signedValue_tmod (s t : Bool) (a b : Nat) : (signedValue s a).tmod (signedValue t b) = signedValue s (a%b) := by
  cases s <;> cases t <;> simp [signedValue,tmod_eq_emod_of_nonneg]

variable {x y : JSBigInt}

theorem toInt_eq_zero_iff (hy : y.Normalized p) : y.toInt p = 0 ↔ y.isZero := by
  rw [isZero_iff,← magnitude_eq_zero_iff hy,toInt]
  cases y.sign <;> simp [signedValue]

theorem single_digit (hy : y.Normalized p) (h : y.length = 1) :
    y.magnitude p = y.digit 0 ∧ y.digit 0 < p.base ∧ 0 < y.digit 0 := by
  obtain ⟨d,hd⟩ := length_eq_one_iff.1 h
  have h0 : y.digit 0 = d := by simp [digit,hd]
  have hm : y.magnitude p = d := by rw [magnitude,hd,ofDigits_singleton]
  have hp := (magnitude_eq_zero_iff hy).not.2 (by simp [hd])
  rw [h0]
  exact ⟨hm,hy.digit_lt d (by simp [hd]),by omega⟩

section
variable (hx : x.Normalized p) (hy : y.Normalized p)
include hx hy

theorem lessThan_iff : absoluteCompare x y = .lessThan ↔ x.magnitude p < y.magnitude p := by
  rw [absoluteCompare_eq hx hy]
  split
  · simpa
  · split <;> simpa using Nat.le_of_not_lt ‹_›

/-- Signed division truncates toward zero. -/
theorem divide_spec :
    DivisionYields p (y.toInt p) ((x.toInt p).tdiv (y.toInt p)) (p.maxLength < x.length + 1) (divide heap x y) := by
  unfold divide
  split
  next hz => exact .inl ⟨(toInt_eq_zero_iff hy).2 hz,rfl⟩
  next hz =>
  have hnz := (toInt_eq_zero_iff hy).not.2 hz
  have hv : (x.toInt p).tdiv (y.toInt p) = signedValue (x.sign != y.sign) (x.magnitude p/y.magnitude p) :=
    signedValue_tdiv _ _ _ _
  rw [hv]
  split
  next hlt =>
    rw [div_eq_of_lt ((lessThan_iff hx hy).1 hlt),signedValue_zero]
    exact ⟨hnz,createZero_represents⟩
  next hg =>
  have hln := length_le_of_magnitude_le hx hy (Nat.le_of_not_lt ((lessThan_iff hx hy).not.1 hg))
  have hp : 0 < y.length := length_pos_of_ne_nil ((isZero_iff y).not.1 hz)
  dsimp only
  split
  next h1 =>
    obtain ⟨hm,hd,h0⟩ := single_digit hy h1
    rw [hm]
    split
    next ho =>
      rw [ho,Nat.div_one]
      exact ⟨hnz,withSign_represents heap hx _⟩
    next ho =>
      obtain ⟨hq,-,hl,hlt⟩ := divWithDigitLoop_spec h0 hd x.digits hx.digit_lt
      unfold absoluteDivWithDigitDivisor
      rw [if_neg ho]
      exact ⟨hnz,trimmed_represents heap _ (createWithLength_length heap _) hl hlt (by omega) hx.length_le hq⟩
  next h1 =>
    rcases absoluteDivWithBigIntDivisor_spec heap hx hy (by omega) hln with
      ⟨he,hlm⟩ | ⟨q,r,heq,hlm,hq,hql,hqd,-⟩
    · rw [he]
      exact .inr ⟨rfl,hlm⟩
    · rw [heq,← hq]
      have hn : q.digits ≠ [] := ne_nil_of_length_pos (by change 0 < q.length; omega)
      exact ⟨hnz,rightTrim_spec heap (x := q.setSign (x.sign != y.sign)) hqd (fun h => absurd h hn)
        (by change q.length ≤ _; omega)⟩

/-- The remainder takes the sign of the dividend. -/
theorem remainder_spec :
    DivisionYields p (y.toInt p) ((x.toInt p).tmod (y.toInt p)) (p.maxLength < x.length + 1) (remainder heap x y) := by
  unfold remainder
  split
  next hz => exact .inl ⟨(toInt_eq_zero_iff hy).2 hz,rfl⟩
  next hz =>
  have hnz := (toInt_eq_zero_iff hy).not.2 hz
  have hv : (x.toInt p).tmod (y.toInt p) = signedValue x.sign (x.magnitude p%y.magnitude p) :=
    signedValue_tmod _ _ _ _
  rw [hv]
  split
  next hlt =>
    rw [mod_eq_of_lt ((lessThan_iff hx hy).1 hlt)]
    exact ⟨hnz,hx.represents⟩
  next hg =>
  have hln := length_le_of_magnitude_le hx hy (Nat.le_of_not_lt ((lessThan_iff hx hy).not.1 hg))
  have hp : 0 < y.length := length_pos_of_ne_nil ((isZero_iff y).not.1 hz)
  dsimp only
  split
  next h1 =>
    obtain ⟨hm,hd,h0⟩ := single_digit hy h1
    rw [hm]
    split
    next ho =>
      rw [ho,mod_one,signedValue_zero]
      exact ⟨hnz,createZero_represents⟩
    next ho =>
      obtain ⟨-,hr,-,-⟩ := divWithDigitLoop_spec h0 hd x.digits hx.digit_lt
      unfold absoluteDivWithDigitDivisor
      rw [if_neg ho]
      rw [hr]
      change DivisionYields p _ (signedValue _ (ofDigits p.base x.digits%_)) _ _
      split
      next hzr =>
        rw [hzr,signedValue_zero]
        exact ⟨hnz,createZero_represents⟩
      · refine ⟨hnz,trimmed_represents heap _ (createWithLength_length heap 1) rfl ?_ one_pos
          (by unfold length at *; have := hy.length_le; omega) ofDigits_singleton⟩
        exact forall_mem_singleton.2 ((mod_lt _ h0).trans hd)
  next h1 =>
    rcases absoluteDivWithBigIntDivisor_spec heap hx hy (by omega) hln with
      ⟨he,hl⟩ | ⟨q,r,heq,hl,-,-,-,hr,hrl,hrd⟩
    · rw [he]
      exact .inr ⟨rfl,hl⟩
    · rw [heq,← hr]
      have hn : r.digits ≠ [] := ne_nil_of_length_pos (by change 0 < r.length; omega)
      exact ⟨hnz,rightTrim_spec heap (x := r.setSign x.sign) hrd (fun h => absurd h hn)
        (by change r.length ≤ _; omega)⟩

end

private theorem tmod_bounds (a b : Int) : (b = 0 ∨ (a.tmod b).natAbs < b.natAbs) ∧ (a.tmod b = 0 ∨ (a.tmod b).sign = a.sign) := by
  refine ⟨?_,?_⟩
  · by_cases hb : b = 0
    · exact .inl hb
    · rw [natAbs_tmod]
      exact .inr (mod_lt _ (natAbs_pos.2 hb))
  · by_cases hr : a.tmod b = 0
    · exact .inl hr
    · refine .inr ?_
      rcases le_total 0 a with h | h
      · have := tmod_nonneg b h
        rcases h.eq_or_lt with rfl | h
        · simp at hr
        · rw [sign_eq_one_of_pos h,sign_eq_one_of_pos (by omega)]
      · have := tmod_nonneg b (neg_nonneg.2 h)
        rw [neg_tmod] at this
        rcases h.eq_or_lt with rfl | h
        · simp at hr
        · rw [sign_eq_neg_one_of_neg h,sign_eq_neg_one_of_neg (by omega)]

/-- The five operators return the normalized representations of sum, difference, product, truncated
quotient and remainder, on every platform and whatever fresh storage holds. -/
theorem arithmetic_exact (x y : NormalizedBigInt p) :
    let X := x.1.toInt p
    let Y := y.1.toInt p
    Yields p (X+Y) (p.maxLength < max x.1.length y.1.length + 1) (add heap x.1 y.1) ∧
      Yields p (X-Y) (p.maxLength < max x.1.length y.1.length + 1) (sub heap x.1 y.1) ∧
      Yields p (X*Y) (p.maxLength < x.1.length + y.1.length) (multiply heap x.1 y.1) ∧
      DivisionYields p Y (X.tdiv Y) (p.maxLength < x.1.length + 1) (divide heap x.1 y.1) ∧
      DivisionYields p Y (X.tmod Y) (p.maxLength < x.1.length + 1) (remainder heap x.1 y.1) ∧
      X = X.tdiv Y*Y + X.tmod Y ∧ (Y = 0 ∨ (X.tmod Y).natAbs < Y.natAbs) ∧
      (X.tmod Y = 0 ∨ (X.tmod Y).sign = X.sign) :=
  ⟨add_spec heap x.2 y.2,sub_spec heap x.2 y.2,multiply_spec heap x.2 y.2,divide_spec heap x.2 y.2,
    remainder_spec heap x.2 y.2,(tdiv_mul_add_tmod _ _).symm,(tmod_bounds _ _).1,(tmod_bounds _ _).2⟩

end JSBigInt
end WebKit.JavaScriptCore.BigInt
